import IndexedTree.Proofs.Lending
import IndexedTree.Proofs.Runs

/-!
# The life cycle of pooled objects

An object of a lending pool is idle, lent, or gone. This module follows it through every request
that starts from a fresh pool.

A draw gives the front of the free list when there is one, and a fresh object with the next serial
number otherwise; either way its value is empty and no slot holds it
(`Lending.Consistent.draw_spec`), and after an acquire only the slot it filled holds the object
(`Lending.Consistent.acquire_holders`). When a step lets go of the last handle to an object, the
object leaves the lent ones and is cleared once: it goes to the back of the free list if fewer
than `retain` objects wait just then, and is dropped otherwise
(`Lending.Consistent.run_of_last_handle`).

Clears are counted against the run. `Lending.lastReleases` counts the steps of a run that let go
of the last handle to a serial number; every step carries each object over with one more clear
exactly when it let go of its last handle (`Lending.Consistent.tracks_run`), so every object kept
has been cleared exactly as often as its last handle was let go (`Lending.clears_runAll`).
-/

namespace IndexedTree

namespace Lending

/-! ## Drawing -/

/-- No slot holds a drawn object: it was idle, or it is fresh. -/
theorem Consistent.holds_drawn {l l' : Lending} {o : PoolObject} (h : l.Consistent none)
    (hd : l.draw = some (o, l')) : l.holds o.serial = false := by
  obtain ⟨-, -, -, -, -, hcase⟩ := draw_eq_some hd
  rcases hcase with ⟨hidle, -⟩ | ⟨-, rfl, -, -⟩
  · exact h.holds_idle (by rw [hidle]; exact List.mem_cons_self)
  · exact h.holds_of_le (Nat.le_refl _)

/-- While the pool lives, a draw gives an object that no slot holds, with its value empty: the
front of the free list, cleared at least once, when the list is not empty, and a fresh object
with the next serial number otherwise. -/
theorem Consistent.draw_spec {l : Lending} (h : l.Consistent none) (hlive : l.live = true) :
    ∃ o l', l.draw = some (o, l') ∧ l.holds o.serial = false ∧ o.value = Bytes.empty ∧
      ((l.pool.idle = o :: l'.pool.idle ∧ 0 < o.clears) ∨
        (l.pool.idle = [] ∧ o = PoolObject.fresh l.nextSerial ∧ l'.pool.idle = [])) := by
  obtain ⟨o, l', hd⟩ := draw_isSome hlive
  obtain ⟨-, -, -, -, -, hcase⟩ := draw_eq_some hd
  refine ⟨o, l', hd, h.holds_drawn hd, ?_⟩
  rcases hcase with ⟨hidle, -⟩ | ⟨hidle, rfl, hidle', -⟩
  · obtain ⟨hvalue, hclears⟩ := h.idle_cleared o (by rw [hidle]; exact List.mem_cons_self)
    exact ⟨hvalue, .inl ⟨hidle, hclears⟩⟩
  · exact ⟨rfl, .inr ⟨hidle, rfl, hidle'⟩⟩

/-- An acquire draws, then points the slot at the object drawn. -/
theorem acquire_of_draw {l l' : Lending} {o : PoolObject} (hd : l.draw = some (o, l'))
    (slot : Bytes) : l.acquire slot = some (o, l'.point slot o.serial) := by
  unfold acquire
  rw [hd]
  rfl

/-- After an acquire, the slot it filled is the only one that holds the object. -/
theorem Consistent.acquire_holders {l l' : Lending} (h : l.Consistent none) {slot : Bytes}
    {o : PoolObject} (ha : l.acquire slot = some (o, l')) {slot' : Bytes}
    (hm : (slot', o.serial) ∈ l'.slots) : slot' = slot := by
  obtain ⟨l₁, hd, rfl⟩ := acquire_eq_some ha
  obtain ⟨-, hslots, -⟩ := draw_eq_some hd
  rw [slots_point] at hm
  rcases mem_assign.1 hm with hp | ⟨hp, -⟩
  · exact (Prod.mk.inj hp).1
  · -- another slot would have held the drawn object already
    rw [hslots] at hp
    have hheld : l.holds o.serial = true := holds_iff.2 ⟨slot', hp⟩
    rw [h.holds_drawn hd] at hheld
    cases hheld

/-! ## Letting go of the last handle -/

/-- Settling an object whose last handle went: it leaves the lent objects, and goes cleared to
the back of the free list if fewer than `retain` objects wait; otherwise it is dropped. -/
theorem Consistent.settle_last {l : Lending} {e : Option Nat} (h : l.Consistent e)
    {o : PoolObject} (ho : o ∈ l.lent) (hfree : l.holds o.serial = false) :
    o.serial ∉ (l.settle o.serial).lent.map (·.serial) ∧
      (l.settle o.serial).pool.idle =
        l.pool.idle ++ if l.pool.idle.length < l.pool.retain then [o.cleared] else [] := by
  rw [h.settle_eq ho hfree]
  refine ⟨fun hm => ?_, ?_⟩
  · obtain ⟨p, hp, hps⟩ := List.mem_map.1 hm
    have hne := (List.mem_filter.1 hp).2
    simp [hps] at hne
  · rw [Pool.idle_give]
    split <;> simp

/-- Pointing a slot elsewhere lets go of the last handle only to the object the slot held. -/
theorem Consistent.point_last {l : Lending} {e : Option Nat} (h : l.Consistent e) {slot : Bytes}
    {s : Nat} (hs : s ∈ l.lent.map (·.serial)) (he : e = none ∨ e = some s) {o : PoolObject}
    (ho : o ∈ l.lent) (hheld : l.holds o.serial = true)
    (hgone : (l.point slot s).holds o.serial = false) :
    o.serial ∉ (l.point slot s).lent.map (·.serial) ∧
      (l.point slot s).pool.idle =
        l.pool.idle ++ if l.pool.idle.length < l.pool.retain then [o.cleared] else [] := by
  cases hold : l.holder? slot with
  | none =>
    rw [point_of_holder?_none hold, holds_assign h.slots_nodup (by rw [hold]; simp) hheld] at hgone
    cases hgone
  | some t =>
    rw [point_of_holder?_some hold, holds_settle] at hgone
    rw [point_of_holder?_some hold]
    -- the slot held this very object: any other would still be held
    have hto : t = o.serial := by
      by_contra hne
      rw [holds_assign h.slots_nodup (by rw [hold]; exact fun hsome => hne (Option.some.inj hsome))
        hheld] at hgone
      cases hgone
    subst hto
    have hassign := h.assign slot hs he
    rw [hold] at hassign
    exact hassign.settle_last ho hgone

/-- Letting a slot go lets go of the last handle only to the object the slot held. -/
theorem Consistent.release_last {l l' : Lending} (h : l.Consistent none) {slot : Bytes}
    (hr : l.release slot = some l') {o : PoolObject} (ho : o ∈ l.lent)
    (hheld : l.holds o.serial = true) (hgone : l'.holds o.serial = false) :
    o.serial ∉ l'.lent.map (·.serial) ∧
      l'.pool.idle =
        l.pool.idle ++ if l.pool.idle.length < l.pool.retain then [o.cleared] else [] := by
  obtain ⟨t, hold, rfl⟩ := release_eq_some hr
  rw [holds_settle] at hgone
  have hto : t = o.serial := by
    by_contra hne
    rw [holds_filter h.slots_nodup (by rw [hold]; exact fun hsome => hne (Option.some.inj hsome))
      hheld] at hgone
    cases hgone
  subst hto
  exact (h.letGo hold).settle_last ho hgone

end Lending

open Service in
/-- When a step lets go of the last handle to a lent object, the object leaves the lent ones and
is cleared once: it goes to the back of the free list as the list stood just before (after the
draw of an acquire) if fewer than `retain` objects waited, and is dropped otherwise. -/
theorem Lending.Consistent.run_of_last_handle {l : Lending} (h : l.Consistent none)
    (c : PoolStep) {o : PoolObject} (ho : o ∈ l.lent) (hheld : l.holds o.serial = true)
    (hgone : (PoolStep.run l c).2.holds o.serial = false) :
    o.serial ∉ (PoolStep.run l c).2.lent.map (·.serial) ∧
      ∃ before, (before = l.pool.idle ∨ ∃ d, l.pool.idle = d :: before) ∧
        (PoolStep.run l c).2.pool.idle =
          before ++ if before.length < l.pool.retain then [o.cleared] else [] := by
  -- only `acquire`, `release` and `copy` change slots; the other steps contradict `hgone`
  have hkept : ∀ {l' : Lending}, l'.slots = l.slots → l'.holds o.serial = false → False := by
    intro l' hslots hfree
    rw [Lending.holds, hslots, ← Lending.holds, hheld] at hfree
    cases hfree
  revert hgone
  cases c with
  | acquire slot =>
    simp only [PoolStep.run]
    split
    · next o₁ l' ha =>
      intro hgone
      obtain ⟨l₁, hd, rfl⟩ := Lending.acquire_eq_some ha
      obtain ⟨-, hslots, -, hretain, hlent, hcase⟩ := Lending.draw_eq_some hd
      have hheld₁ : l₁.holds o.serial = true := by rw [Lending.holds, hslots]; exact hheld
      have ho₁ : o ∈ l₁.lent := by rw [hlent]; exact List.mem_append_left _ ho
      obtain ⟨hlent', hidle'⟩ := (h.draw hd).point_last
        (List.mem_map_of_mem (Lending.mem_lent_of_draw hd)) (.inr rfl) ho₁ hheld₁ hgone
      refine ⟨hlent', l₁.pool.idle, ?_, by rw [hidle', hretain]⟩
      rcases hcase with ⟨hidle, -⟩ | ⟨hidle, -, hidle₁, -⟩
      · exact .inr ⟨o₁, hidle⟩
      · exact .inl (by rw [hidle, hidle₁])
    · exact fun hgone => (hkept rfl hgone).elim
  | set slot v =>
    rw [PoolStep.run, PoolStep.update_snd]
    cases hs : l.set slot v with
    | none => exact fun hgone => (hkept rfl hgone).elim
    | some l' =>
      obtain ⟨t, rfl⟩ := Lending.set_eq_some hs
      exact fun hgone => (hkept rfl hgone).elim
  | get slot =>
    simp only [PoolStep.run]
    split <;> exact fun hgone => (hkept rfl hgone).elim
  | release slot =>
    rw [PoolStep.run, PoolStep.update_snd]
    cases hr : l.release slot with
    | none => exact fun hgone => (hkept rfl hgone).elim
    | some l' =>
      intro hgone
      obtain ⟨hlent', hidle'⟩ := h.release_last hr ho hheld hgone
      exact ⟨hlent', l.pool.idle, .inl rfl, hidle'⟩
  | copy src dst =>
    simp only [PoolStep.run]
    split
    · next s d hs =>
      intro hgone
      obtain ⟨hlent', hidle'⟩ :=
        h.point_last (h.held_lent s (Lending.holds_of_holder? h.slots_nodup hs)) (.inl rfl) ho
          hheld hgone
      exact ⟨hlent', l.pool.idle, .inl rfl, hidle'⟩
    · exact fun hgone => (hkept rfl hgone).elim
    · exact fun hgone => (hkept rfl hgone).elim
  | idle =>
    simp only [PoolStep.run]
    split <;> exact fun hgone => (hkept rfl hgone).elim
  | shrink =>
    rw [PoolStep.run, PoolStep.update_snd]
    unfold Lending.shrink
    split <;> exact fun hgone => (hkept rfl hgone).elim
  | destroy =>
    rw [PoolStep.run, PoolStep.update_snd]
    unfold Lending.destroy
    split <;> exact fun hgone => (hkept rfl hgone).elim

namespace Lending

/-! ## Counting clears -/

/-- `o'` is an object of `l` cleared `k` times more, or a fresh one: never cleared, with a serial
number not drawn in `l`. -/
def ClearedSince (l : Lending) (k : Nat) (o' : PoolObject) : Prop :=
  (∃ o ∈ l.objects, o.serial = o'.serial ∧ o'.clears = o.clears + k) ∨
    (o'.clears = 0 ∧ l.nextSerial ≤ o'.serial)

/-- Every object of `l'` is an object of `l`, cleared as often, or a fresh one. -/
def Descends (l l' : Lending) : Prop := ∀ o' ∈ l'.objects, ClearedSince l 0 o'

/-- One clear if the last slot holding serial number `s` let it go from `l` to `l'`. -/
def released (l l' : Lending) (s : Nat) : Nat := if l.holds s && !l'.holds s then 1 else 0

/-- Every object of `l'` is an object of `l`, cleared once more if its last handle went, or a
fresh one. -/
def Tracks (l l' : Lending) : Prop :=
  ∀ o' ∈ l'.objects, ClearedSince l (released l l' o'.serial) o'

theorem released_eq_zero {l l' : Lending} {x : Nat}
    (hheld : l.holds x = true → l'.holds x = true) : released l l' x = 0 := by
  unfold released
  cases hx : l.holds x
  · rfl
  · simp [hheld hx]

theorem released_eq_one {l l' : Lending} {x : Nat} (hheld : l.holds x = true)
    (hfree : l'.holds x = false) : released l l' x = 1 := by
  simp [released, hheld, hfree]

theorem descends_of_subset {l l' : Lending} (hsub : ∀ o ∈ l'.objects, o ∈ l.objects) :
    Descends l l' :=
  fun o ho => .inl ⟨o, hsub o ho, rfl, rfl⟩

theorem descends_draw {l l' : Lending} {o : PoolObject} (hd : l.draw = some (o, l')) :
    Descends l l' := by
  obtain ⟨-, -, -, -, hlent, hcase⟩ := draw_eq_some hd
  intro o' ho'
  rw [mem_objects, hlent, List.mem_append, List.mem_singleton] at ho'
  rcases hcase with ⟨hidle, -⟩ | ⟨hidle, rfl, hidle', -⟩
  · -- the drawn object was the front of the free list
    refine .inl ⟨o', mem_objects.2 ?_, rfl, rfl⟩
    rw [hidle]
    rcases ho' with ho' | ho' | rfl
    · exact .inl (List.mem_cons_of_mem _ ho')
    · exact .inr ho'
    · exact .inl List.mem_cons_self
  · rcases ho' with ho' | ho' | rfl
    · rw [hidle'] at ho'
      cases ho'
    · exact .inl ⟨o', mem_objects.2 (.inr ho'), rfl, rfl⟩
    · exact .inr ⟨rfl, Nat.le_refl _⟩

/-- Setting values keeps serial numbers and clears. -/
theorem descends_mapLent (l : Lending) (f : PoolObject → PoolObject)
    (hf : ∀ o, (f o).serial = o.serial ∧ (f o).clears = o.clears) :
    Descends l { l with lent := l.lent.map f } := by
  intro o' ho'
  rcases List.mem_append.1 ho' with ho' | ho'
  · exact .inl ⟨o', mem_objects.2 (.inl ho'), rfl, rfl⟩
  · obtain ⟨o, ho, rfl⟩ := List.mem_map.1 ho'
    exact .inl ⟨o, mem_objects.2 (.inr ho), (hf o).1.symm, by rw [(hf o).2, Nat.add_zero]⟩

/-- Where no handle is let go, the clears follow the objects. -/
theorem tracks_of_descends {l l' : Lending} (hd : Descends l l')
    (hheld : ∀ x, l.holds x = true → l'.holds x = true) : Tracks l l' := by
  intro o' ho'
  rw [released_eq_zero (hheld o'.serial)]
  exact hd o' ho'

theorem tracks_refl (l : Lending) : Tracks l l :=
  tracks_of_descends (descends_of_subset fun _ ho => ho) fun _ hx => hx

/-- Letting go of a slot that held serial number `t`, then settling `t`: the object with that
serial number is cleared once if that was its last handle, and the others are as they were. -/
theorem tracks_settle {l l₁ : Lending} {t : Nat} (h : l.Consistent none)
    (h₁ : l₁.Consistent (some t)) (hd : Descends l l₁) (ht : l.holds t = true)
    (ht₁ : t ∈ l₁.lent.map (·.serial))
    (hheld : ∀ x, x ≠ t → l.holds x = true → l₁.holds x = true) : Tracks l (l₁.settle t) := by
  intro o' ho'
  rcases h₁.mem_objects_settle ht₁ ho' with ⟨ho', hkept⟩ | ⟨o, ho, rfl, hfree, rfl⟩
  · -- kept as it was, and still held if it was
    have hstill : l.holds o'.serial = true → (l₁.settle t).holds o'.serial = true := by
      intro hx
      rw [holds_settle]
      by_cases hxt : o'.serial = t
      · rw [hxt]
        exact hkept hxt
      · exact hheld _ hxt hx
    rw [released_eq_zero hstill]
    exact hd o' ho'
  · -- the last handle went: cleared once more than the object it was in `l`
    rw [PoolObject.serial_cleared, released_eq_one ht (by rw [holds_settle]; exact hfree)]
    rcases hd o (mem_objects.2 (.inr ho)) with ⟨o₀, ho₀, hs, hc⟩ | ⟨-, hle⟩
    · refine .inl ⟨o₀, ho₀, hs, ?_⟩
      simp only [PoolObject.cleared, hc, Nat.add_zero]
    · rw [h.holds_of_le hle] at ht
      cases ht

/-- Pointing a slot at a lent object, in a pool whose objects come from those of `l` and whose
slots are those of `l`. -/
theorem tracks_point {l l₁ : Lending} {e : Option Nat} (h : l.Consistent none)
    (h₁ : l₁.Consistent e) (hd : Descends l l₁) (hslots : l₁.slots = l.slots) {slot : Bytes}
    {s : Nat} (hs : s ∈ l₁.lent.map (·.serial)) (he : e = none ∨ e = some s) :
    Tracks l (l₁.point slot s) := by
  have hheld : ∀ x, l₁.holds x = l.holds x := fun x => by simp only [holds, hslots]
  cases hold : l₁.holder? slot with
  | none =>
    rw [point_of_holder?_none hold]
    exact tracks_of_descends hd fun x hx =>
      holds_assign h₁.slots_nodup (by rw [hold]; simp) (by rw [hheld]; exact hx)
  | some t =>
    have hassign := h₁.assign slot hs he
    rw [hold] at hassign
    rw [point_of_holder?_some hold]
    have ht : l₁.holds t = true := holds_of_holder? h₁.slots_nodup hold
    refine tracks_settle h hassign hd (by rw [← hheld]; exact ht) (h₁.held_lent t ht)
      fun x hxt hx => ?_
    exact holds_assign h₁.slots_nodup
      (by rw [hold]; exact fun hsome => hxt (Option.some.inj hsome).symm) (by rw [hheld]; exact hx)

end Lending

open Service in
/-- Every step carries each object over, cleared once more exactly when the step let go of its
last handle; the other objects it leaves are fresh. -/
theorem Lending.Consistent.tracks_run {l : Lending} (h : l.Consistent none) (c : PoolStep) :
    Lending.Tracks l (PoolStep.run l c).2 := by
  cases c with
  | acquire slot =>
    simp only [PoolStep.run]
    split
    · next o l' ha =>
      obtain ⟨l₁, hd, rfl⟩ := Lending.acquire_eq_some ha
      obtain ⟨-, hslots, -, -, -, -⟩ := Lending.draw_eq_some hd
      exact Lending.tracks_point h (h.draw hd) (Lending.descends_draw hd) hslots
        (List.mem_map_of_mem (Lending.mem_lent_of_draw hd)) (.inr rfl)
    · exact Lending.tracks_refl l
  | set slot v =>
    rw [PoolStep.run, PoolStep.update_snd]
    cases hs : l.set slot v with
    | none => exact Lending.tracks_refl l
    | some l' =>
      obtain ⟨t, rfl⟩ := Lending.set_eq_some hs
      refine Lending.tracks_of_descends (Lending.descends_mapLent l _ fun o => ?_) fun _ hx => hx
      split <;> exact ⟨rfl, rfl⟩
  | get slot =>
    simp only [PoolStep.run]
    split <;> exact Lending.tracks_refl l
  | release slot =>
    rw [PoolStep.run, PoolStep.update_snd]
    cases hr : l.release slot with
    | none => exact Lending.tracks_refl l
    | some l' =>
      obtain ⟨t, hold, rfl⟩ := Lending.release_eq_some hr
      have ht : l.holds t = true := Lending.holds_of_holder? h.slots_nodup hold
      refine Lending.tracks_settle h (h.letGo hold) (Lending.descends_of_subset fun _ ho => ho) ht
        (h.held_lent t ht) fun x hxt hx => ?_
      exact Lending.holds_filter h.slots_nodup
        (by rw [hold]; exact fun hsome => hxt (Option.some.inj hsome).symm) hx
  | copy src dst =>
    simp only [PoolStep.run]
    split
    · next s d hs =>
      exact Lending.tracks_point h h (Lending.descends_of_subset fun _ ho => ho) rfl
        (h.held_lent s (Lending.holds_of_holder? h.slots_nodup hs)) (.inl rfl)
    · exact Lending.tracks_refl l
    · exact Lending.tracks_refl l
  | idle =>
    simp only [PoolStep.run]
    split <;> exact Lending.tracks_refl l
  | shrink =>
    rw [PoolStep.run, PoolStep.update_snd]
    unfold Lending.shrink
    split
    · refine Lending.tracks_of_descends (Lending.descends_of_subset fun o ho => ?_) fun _ hx => hx
      exact Lending.mem_objects.2 (.inr (by simpa [Lending.objects] using ho))
    · exact Lending.tracks_refl l
  | destroy =>
    rw [PoolStep.run, PoolStep.update_snd]
    unfold Lending.destroy
    split
    · exact Lending.tracks_of_descends (Lending.descends_of_subset fun _ ho => ho) fun _ hx => hx
    · exact Lending.tracks_refl l

namespace Lending

open Service

/-- How many steps of a run from `l` let go of the last handle to the object with serial `s`. -/
def lastReleases (s : Nat) : Lending → List PoolStep → Nat
  | _, [] => 0
  | l, c :: steps => released l (PoolStep.run l c).2 s + lastReleases s (PoolStep.run l c).2 steps

theorem lastReleases_append_singleton (s : Nat) (l : Lending) (steps : List PoolStep)
    (c : PoolStep) :
    lastReleases s l (steps ++ [c]) =
      lastReleases s l steps +
        released (runAll PoolStep.run l steps)
          (PoolStep.run (runAll PoolStep.run l steps) c).2 s := by
  induction steps generalizing l with
  | nil => simp [lastReleases]
  | cons c' steps ih =>
    rw [List.cons_append, lastReleases, lastReleases, ih, runAll_cons, Nat.add_assoc]

/-! ## Runs from a fresh pool -/

theorem consistent_runAll (N : Nat) (steps : List PoolStep) :
    (runAll PoolStep.run (start N) steps).Consistent none :=
  runAll_induction (fun u : Lending => u.Consistent none) (consistent_start N)
    (fun _ c hu => hu.run c) steps

theorem retain_runAll (N : Nat) (steps : List PoolStep) :
    (runAll PoolStep.run (start N) steps).pool.retain = N :=
  runAll_induction (fun u : Lending => u.pool.retain = N) rfl
    (fun u c hu => (retain_run_and_nextSerial_le u c).1.trans hu) steps

/-- Along a run from a fresh pool, every object kept has been cleared exactly as often as a step
let go of its last handle, and no step let go of a serial number not drawn yet. -/
theorem clears_runAll (N : Nat) (steps : List PoolStep) :
    (∀ o ∈ (runAll PoolStep.run (start N) steps).objects,
      o.clears = lastReleases o.serial (start N) steps) ∧
    ∀ s, (runAll PoolStep.run (start N) steps).nextSerial ≤ s →
      lastReleases s (start N) steps = 0 := by
  induction steps using List.reverseRecOn with
  | nil => exact ⟨fun o ho => by simp [start, objects] at ho, fun s _ => rfl⟩
  | append_singleton steps c ih =>
    obtain ⟨hclears, hfresh⟩ := ih
    have h := consistent_runAll N steps
    -- a serial number not drawn before the step was not held, so the step did not let it go
    have hnew : ∀ s, (runAll PoolStep.run (start N) steps).nextSerial ≤ s →
        released (runAll PoolStep.run (start N) steps)
          (PoolStep.run (runAll PoolStep.run (start N) steps) c).2 s = 0 := by
      intro s hs
      refine released_eq_zero fun hx => ?_
      rw [h.holds_of_le hs] at hx
      cases hx
    rw [runAll_append_singleton]
    refine ⟨fun o' ho' => ?_, fun s hs => ?_⟩
    · rw [lastReleases_append_singleton]
      rcases h.tracks_run c o' ho' with ⟨o, ho, hs, hc⟩ | ⟨hc, hle⟩
      · rw [hc, hclears o ho, hs]
      · rw [hc, hfresh _ hle, hnew _ hle]
    · have hle : (runAll PoolStep.run (start N) steps).nextSerial ≤ s :=
        Nat.le_trans (retain_run_and_nextSerial_le _ c).2 hs
      rw [lastReleases_append_singleton, hfresh s hle, hnew s hle]

/-- The life cycle of the objects of a pool that keeps at most `N` idle objects, in every state a
request reaches. The free list holds at most `N` objects, and `idleCount?` counts them while the
pool lives. No object is kept twice, no slot holds an idle object, and after an acquire only the
slot it filled holds the object. An acquire takes the front of the free list, with one object
less waiting, or a fresh object when the list is empty; its value is empty either way. A step
that lets go of the last handle to an object clears it once and puts it at the back of the free
list if fewer than `N` wait, and drops it otherwise. Every object has been cleared exactly as
often as its last handle was let go. Shrinking leaves no idle object and every handle as it was. -/
theorem lifecycle_runAll (N : Nat) (steps : List PoolStep) :
    let l := runAll PoolStep.run (start N) steps
    (l.pool.idle.length ≤ N ∧ (l.live = true → l.idleCount? = some l.pool.idle.length)) ∧
    ((l.objects.map (·.serial)).Nodup ∧ (∀ o ∈ l.pool.idle, l.holds o.serial = false) ∧
      ∀ slot o l', l.acquire slot = some (o, l') →
        l.holds o.serial = false ∧ ∀ slot', (slot', o.serial) ∈ l'.slots → slot' = slot) ∧
    (l.live = true → ∃ o l', l.draw = some (o, l') ∧
      (∀ slot, l.acquire slot = some (o, l'.point slot o.serial)) ∧ o.value = Bytes.empty ∧
      ((l.pool.idle = o :: l'.pool.idle ∧ 0 < o.clears) ∨
        (l.pool.idle = [] ∧ o = PoolObject.fresh l.nextSerial ∧ l'.pool.idle = []))) ∧
    (∀ c o, o ∈ l.lent → l.holds o.serial = true → (PoolStep.run l c).2.holds o.serial = false →
      o.serial ∉ (PoolStep.run l c).2.lent.map (·.serial) ∧
        ∃ before, (before = l.pool.idle ∨ ∃ d, l.pool.idle = d :: before) ∧
          (PoolStep.run l c).2.pool.idle = before ++ if before.length < N then [o.cleared] else []) ∧
    (∀ o ∈ l.objects, o.clears = lastReleases o.serial (start N) steps) ∧
    (l.live = true → ∃ l', l.shrink = some l' ∧ l'.idleCount? = some 0 ∧ l'.lent = l.lent ∧
      l'.slots = l.slots) := by
  intro l
  have h : l.Consistent none := consistent_runAll N steps
  have hretain : l.pool.retain = N := retain_runAll N steps
  refine ⟨⟨hretain ▸ h.idle_le, fun hlive => ?_⟩, ⟨h.nodup, fun o ho => h.holds_idle ho,
    fun slot o l' ha => ⟨?_, fun slot' hm => h.acquire_holders ha hm⟩⟩, fun hlive => ?_,
    fun c o ho hheld hgone => hretain ▸ h.run_of_last_handle c ho hheld hgone,
    (clears_runAll N steps).1, fun hlive => ?_⟩
  · rw [idleCount?, if_pos hlive]
    rfl
  · obtain ⟨l₁, hd, -⟩ := acquire_eq_some ha
    exact h.holds_drawn hd
  · obtain ⟨o, l', hd, -, hvalue, hcase⟩ := h.draw_spec hlive
    exact ⟨o, l', hd, acquire_of_draw hd, hvalue, hcase⟩
  · unfold Lending.shrink
    rw [if_pos hlive]
    refine ⟨_, rfl, ?_, rfl, rfl⟩
    rw [idleCount?, if_pos hlive]
    rfl

/-- With room for one idle object, an object acquired into a slot and let go goes back to the
free list, cleared once. -/
theorem lifecycle_runAll_release_into_free_list :
    let l := runAll PoolStep.run (start 1) [.acquire ⟨[1]⟩]
    let o : PoolObject := ⟨1, 0, Bytes.empty⟩
    o ∈ l.lent ∧ l.holds o.serial = true ∧
      (PoolStep.run l (.release ⟨[1]⟩)).2.holds o.serial = false ∧
      o.serial ∉ (PoolStep.run l (.release ⟨[1]⟩)).2.lent.map (·.serial) ∧
        ∃ before, (before = l.pool.idle ∨ ∃ d, l.pool.idle = d :: before) ∧
          (PoolStep.run l (.release ⟨[1]⟩)).2.pool.idle =
            before ++ if before.length < 1 then [o.cleared] else [] :=
  ⟨by decide, by decide, by decide,
    (lifecycle_runAll 1 [.acquire ⟨[1]⟩]).2.2.2.1 (.release ⟨[1]⟩) ⟨1, 0, Bytes.empty⟩ (by decide)
      (by decide) (by decide)⟩

end Lending

end IndexedTree
