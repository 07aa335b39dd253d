import Mathlib
import IndexedTree.Proofs.Pool
import IndexedTree.Service.NodePool

/-!
# The bookkeeping of a lending pool

A pool lends objects through named slots. An object is idle (waiting in the free list), lent
(held by at least one slot), or gone. `Lending.Consistent` states that the bookkeeping is in
order: the idle objects are at most `retain`, cleared, and held by no slot; no object is kept
twice; every slot holds a lent object and every lent object is held by a slot; every serial
number kept was drawn before the next one. Inside a step one object may be pending, lent with no
slot holding it: the object just drawn, or the one whose last handle was just let go. Settling
the pending object restores the order (`Consistent.settle`), and every step of a pool request
keeps it (`Consistent.run`).

Every step keeps `retain` as it was and never lowers the next serial number
(`retain_run_and_nextSerial_le`). What the invariant gives about a whole request, the objects a
draw returns, the last handles let go and the count of clears, is in the pool life cycle.
-/

namespace IndexedTree

@[simp] theorem PoolObject.serial_cleared (o : PoolObject) : o.cleared.serial = o.serial := rfl

namespace Lending

/-- Whether some slot holds the object with serial `s`. -/
def holds (l : Lending) (s : Nat) : Bool := l.slots.any (·.2 == s)

/-- The objects the pool keeps track of: the idle ones, the longest waiting first, then those
lent. -/
def objects (l : Lending) : List PoolObject := l.pool.idle ++ l.lent

theorem holds_iff {l : Lending} {s : Nat} : l.holds s = true ↔ ∃ slot, (slot, s) ∈ l.slots := by
  simp [holds]

/-! ## Slots -/

theorem mem_assign {slots : List (Bytes × Nat)} {slot : Bytes} {s : Nat} {p : Bytes × Nat} :
    p ∈ assign slots slot s ↔ p = (slot, s) ∨ (p ∈ slots ∧ p.1 ≠ slot) := by
  simp [assign]

theorem nodup_assign {slots : List (Bytes × Nat)} (h : (slots.map Prod.fst).Nodup) (slot : Bytes)
    (s : Nat) : ((assign slots slot s).map Prod.fst).Nodup := by
  simp only [assign, List.map_cons, List.nodup_cons]
  refine ⟨?_, (List.filter_sublist.map Prod.fst).nodup h⟩
  simp [List.mem_filter]

/-- With each slot once, a slot's lookup finds exactly its entry. -/
theorem lookup_eq_some_iff {slots : List (Bytes × Nat)} (h : (slots.map Prod.fst).Nodup)
    {slot : Bytes} {s : Nat} : slots.lookup slot = some s ↔ (slot, s) ∈ slots := by
  induction slots with
  | nil => simp
  | cons p rest ih =>
    obtain ⟨k, v⟩ := p
    simp only [List.map_cons, List.nodup_cons] at h
    by_cases hk : slot = k
    · subst hk
      have hrest : (slot, s) ∉ rest := fun hm => h.1 (List.mem_map.2 ⟨_, hm, rfl⟩)
      simp [hrest, eq_comm]
    · have hbeq : (slot == k) = false := beq_false_of_ne hk
      simp only [List.lookup, hbeq, ih h.2, List.mem_cons, Prod.mk.injEq, hk, false_and, false_or]

/-- With each slot once, an entry that a slot's lookup does not find belongs to another slot. -/
theorem ne_of_lookup_ne {slots : List (Bytes × Nat)} (h : (slots.map Prod.fst).Nodup)
    {slot slot' : Bytes} {x : Nat} (hx : slots.lookup slot ≠ some x) (hm : (slot', x) ∈ slots) :
    slot' ≠ slot := by
  rintro rfl
  exact hx ((lookup_eq_some_iff h).2 hm)

/-- A slot's object is held. -/
theorem holds_of_holder? {l : Lending} (h : (l.slots.map Prod.fst).Nodup) {slot : Bytes} {t : Nat}
    (hold : l.holder? slot = some t) : l.holds t = true :=
  holds_iff.2 ⟨slot, (lookup_eq_some_iff h).1 hold⟩

theorem mem_objects {l : Lending} {o : PoolObject} : o ∈ l.objects ↔ o ∈ l.pool.idle ∨ o ∈ l.lent :=
  List.mem_append

/-! ## The invariant -/

/-- The bookkeeping of a pool is in order, but for the object with serial `pending`, if any,
which may be lent with no slot holding it. -/
structure Consistent (l : Lending) (pending : Option Nat) : Prop where
  /-- At most `retain` objects wait. -/
  idle_le : l.pool.idle.length ≤ l.pool.retain
  /-- No object is kept twice, idle or lent. -/
  nodup : (l.objects.map (·.serial)).Nodup
  /-- A slot holds a lent object. -/
  held_lent : ∀ s, l.holds s = true → s ∈ l.lent.map (·.serial)
  /-- A lent object is held by a slot, unless it is the pending one. -/
  lent_held : ∀ o ∈ l.lent, pending ≠ some o.serial → l.holds o.serial = true
  /-- Each slot holds one object. -/
  slots_nodup : (l.slots.map Prod.fst).Nodup
  /-- Every serial number kept was drawn before the next one. -/
  serial_lt : ∀ o ∈ l.objects, o.serial < l.nextSerial
  /-- An idle object is cleared. -/
  idle_cleared : ∀ o ∈ l.pool.idle, o.value = Bytes.empty ∧ 0 < o.clears

theorem consistent_start (retain : Nat) : (start retain).Consistent none where
  idle_le := by simp [start]
  nodup := by simp [start, objects]
  held_lent := by simp [start, holds]
  lent_held := by simp [start]
  slots_nodup := by simp [start]
  serial_lt := by simp [start, objects]
  idle_cleared := by simp [start]

namespace Consistent

variable {l : Lending} {e : Option Nat}

theorem lent_nodup (h : l.Consistent e) : (l.lent.map (·.serial)).Nodup := by
  have := h.nodup
  rw [objects, List.map_append] at this
  exact (List.nodup_append.1 this).2.1

/-- No object is both idle and lent. -/
theorem not_mem_lent_of_idle (h : l.Consistent e) {o : PoolObject} (ho : o ∈ l.pool.idle) :
    o.serial ∉ l.lent.map (·.serial) := by
  have := h.nodup
  rw [objects, List.map_append] at this
  exact List.disjoint_of_nodup_append this (List.mem_map_of_mem ho)

/-- No slot holds an idle object. -/
theorem holds_idle (h : l.Consistent e) {o : PoolObject} (ho : o ∈ l.pool.idle) :
    l.holds o.serial = false :=
  Bool.eq_false_iff.2 fun hh => h.not_mem_lent_of_idle ho (h.held_lent _ hh)

/-- No slot holds a serial number not drawn yet. -/
theorem holds_of_le (h : l.Consistent e) {s : Nat} (hs : l.nextSerial ≤ s) : l.holds s = false := by
  refine Bool.eq_false_iff.2 fun hh => ?_
  obtain ⟨o, ho, rfl⟩ := List.mem_map.1 (h.held_lent s hh)
  have := h.serial_lt o (mem_objects.2 (.inr ho))
  omega

/-- A lent object is the one its serial number finds. -/
theorem find?_lent (h : l.Consistent e) {o : PoolObject} (ho : o ∈ l.lent) :
    l.lent.find? (·.serial == o.serial) = some o := by
  obtain ⟨o', ho'⟩ : ∃ o', l.lent.find? (·.serial == o.serial) = some o' :=
    Option.isSome_iff_exists.1 (List.find?_isSome.2 ⟨o, ho, by simp⟩)
  have hser : o'.serial = o.serial := by simpa using List.find?_some ho'
  rw [ho', List.inj_on_of_nodup_map h.lent_nodup (List.mem_of_find?_eq_some ho') ho hser]

/-- Slots may be replaced by any that hold lent objects, each slot once, and hold every lent
object but the pending one. -/
theorem withSlots (h : l.Consistent e) {slots : List (Bytes × Nat)} {e' : Option Nat}
    (hnodup : (slots.map Prod.fst).Nodup) (hlent : ∀ p ∈ slots, p.2 ∈ l.lent.map (·.serial))
    (hheld : ∀ o ∈ l.lent, e' ≠ some o.serial → ∃ slot, (slot, o.serial) ∈ slots) :
    ({ l with slots := slots } : Lending).Consistent e' where
  idle_le := h.idle_le
  nodup := h.nodup
  held_lent s hs := by
    obtain ⟨slot, hslot⟩ := holds_iff.1 hs
    exact hlent _ hslot
  lent_held o ho he := holds_iff.2 (hheld o ho he)
  slots_nodup := hnodup
  serial_lt := h.serial_lt
  idle_cleared := h.idle_cleared

theorem mapLent (h : l.Consistent e) (f : PoolObject → PoolObject)
    (hf : ∀ o, (f o).serial = o.serial) :
    ({ l with lent := l.lent.map f } : Lending).Consistent e := by
  have hserial : (l.lent.map f).map (·.serial) = l.lent.map (·.serial) := by
    rw [List.map_map]
    exact List.map_congr_left fun o _ => hf o
  refine
    { idle_le := h.idle_le
      nodup := by simpa [objects, hserial] using h.nodup
      held_lent := fun s hs => hserial ▸ h.held_lent s hs
      lent_held := fun o ho he => ?_
      slots_nodup := h.slots_nodup
      serial_lt := fun o ho => ?_
      idle_cleared := h.idle_cleared }
  · obtain ⟨o', ho', rfl⟩ := List.mem_map.1 ho
    rw [hf] at he ⊢
    exact h.lent_held o' ho' he
  · rcases List.mem_append.1 ho with ho | ho
    · exact h.serial_lt o (mem_objects.2 (.inl ho))
    · obtain ⟨o', ho', rfl⟩ := List.mem_map.1 ho
      rw [hf]
      exact h.serial_lt o' (mem_objects.2 (.inr ho'))

theorem shrink (h : l.Consistent e) :
    ({ l with pool := l.pool.shrink } : Lending).Consistent e where
  idle_le := by simp
  nodup := by
    simpa [objects] using (List.nodup_append.1 (by simpa [objects] using h.nodup)).2.1
  held_lent := h.held_lent
  lent_held := h.lent_held
  slots_nodup := h.slots_nodup
  serial_lt o ho := h.serial_lt o (mem_objects.2 (.inr (by simpa [objects] using ho)))
  idle_cleared := by simp

theorem destroy (h : l.Consistent e) : ({ l with live := false } : Lending).Consistent e :=
  ⟨h.idle_le, h.nodup, h.held_lent, h.lent_held, h.slots_nodup, h.serial_lt, h.idle_cleared⟩

end Consistent

/-! ## Letting go of the last handle -/

/-- While a slot holds an object, settling it changes nothing. -/
theorem settle_of_holds {l : Lending} {s : Nat} (h : l.holds s = true) : l.settle s = l := by
  unfold holds at h
  unfold settle
  rw [if_pos h]

@[simp] theorem slots_settle (l : Lending) (s : Nat) : (l.settle s).slots = l.slots := by
  unfold settle
  split
  · rfl
  · split <;> rfl

@[simp] theorem retain_settle (l : Lending) (s : Nat) :
    (l.settle s).pool.retain = l.pool.retain := by
  unfold settle
  split
  · rfl
  · split
    · rfl
    · exact Pool.retain_give _ _

@[simp] theorem nextSerial_settle (l : Lending) (s : Nat) :
    (l.settle s).nextSerial = l.nextSerial := by
  unfold settle
  split
  · rfl
  · split <;> rfl

theorem holds_settle (l : Lending) (s x : Nat) : (l.settle s).holds x = l.holds x := by
  simp only [holds, slots_settle]

/-- Settling a lent object that no slot holds: it leaves the lent objects and, cleared, goes to
the pool. -/
theorem Consistent.settle_eq {l : Lending} {e : Option Nat} (h : l.Consistent e) {o : PoolObject}
    (ho : o ∈ l.lent) (hfree : l.holds o.serial = false) :
    l.settle o.serial =
      { l with lent := l.lent.filter (·.serial != o.serial), pool := l.pool.give o.cleared } := by
  unfold holds at hfree
  unfold settle
  simp only [hfree, Bool.false_eq_true, if_false, h.find?_lent ho]

/-- Settling the pending object puts the bookkeeping in order. -/
theorem Consistent.settle {l : Lending} {s : Nat} (h : l.Consistent (some s)) :
    (l.settle s).Consistent none := by
  by_cases hheld : l.holds s = true
  · -- a slot still holds it: nothing happens, and nothing is pending any more
    rw [settle_of_holds hheld]
    refine { h with lent_held := fun o ho _ => ?_ }
    by_cases hos : o.serial = s
    · rw [hos]
      exact hheld
    · exact h.lent_held o ho (by simpa [eq_comm] using hos)
  have hfree : l.holds s = false := by simpa using hheld
  by_cases hlent : s ∈ l.lent.map (·.serial)
  · obtain ⟨o, ho, rfl⟩ := List.mem_map.1 hlent
    rw [h.settle_eq ho hfree]
    -- the lent serial numbers less `o`'s, which the cleared `o` may take in the free list
    have hrest : (l.lent.filter (·.serial != o.serial)).map (·.serial) =
        (l.lent.map (·.serial)).erase o.serial := by
      rw [h.lent_nodup.erase_eq_filter, List.filter_map]
      rfl
    have hperm :
        (l.lent.map (·.serial)).Perm (o.serial :: (l.lent.map (·.serial)).erase o.serial) :=
      List.perm_cons_erase hlent
    refine
      { idle_le := Pool.length_idle_give_le _ _ h.idle_le
        nodup := ?_
        held_lent := fun x hx => ?_
        lent_held := fun p hp _ => ?_
        slots_nodup := h.slots_nodup
        serial_lt := fun p hp => ?_
        idle_cleared := fun p hp => ?_ }
    · have hnodup := h.nodup
      simp only [objects, List.map_append] at hnodup ⊢
      rw [hrest, Pool.idle_give]
      split
      · -- room: the cleared object takes the place of `o`
        rw [List.map_append, List.map_singleton, List.append_assoc, List.singleton_append]
        exact (hperm.append_left _).nodup_iff.1 hnodup
      · exact (List.erase_sublist.append_left _).nodup hnodup
    · have hx' : x ≠ o.serial := by
        intro hxo
        have hheld' : l.holds x = true := hx
        rw [hxo, hfree] at hheld'
        exact Bool.false_ne_true hheld'
      rw [hrest]
      exact (List.mem_erase_of_ne hx').2 (h.held_lent x hx)
    · obtain ⟨hp, hps⟩ := List.mem_filter.1 hp
      refine h.lent_held p hp fun hsome => ?_
      rw [bne_iff_ne] at hps
      exact hps (Option.some.inj hsome).symm
    · rcases mem_objects.1 hp with hp | hp
      · rcases Pool.mem_idle_give hp with hp | rfl
        · exact h.serial_lt p (mem_objects.2 (.inl hp))
        · rw [PoolObject.serial_cleared]
          exact h.serial_lt o (mem_objects.2 (.inr ho))
      · exact h.serial_lt p (mem_objects.2 (.inr (List.mem_filter.1 hp).1))
    · rcases Pool.mem_idle_give hp with hp | rfl
      · exact h.idle_cleared p hp
      · exact ⟨rfl, Nat.succ_pos _⟩
  · -- no lent object has that serial number: nothing happens
    have hnone : l.lent.find? (·.serial == s) = none :=
      List.find?_eq_none.2 fun o ho hos => hlent (List.mem_map.2 ⟨o, ho, by simpa using hos⟩)
    have hsame : l.settle s = l := by
      unfold holds at hfree
      unfold Lending.settle
      simp only [hfree, Bool.false_eq_true, if_false, hnone]
    rw [hsame]
    exact { h with
      lent_held := fun o ho _ =>
        h.lent_held o ho fun hos => hlent (List.mem_map.2 ⟨o, ho, by simpa using hos.symm⟩) }

/-! ## Drawing and pointing slots -/

/-- A draw, while the pool lives, takes the front of the free list, or builds a fresh object with
the next serial number when the list is empty, and lends it with no slot holding it. -/
theorem draw_eq_some {l l' : Lending} {o : PoolObject} (hd : l.draw = some (o, l')) :
    l.live = true ∧ l'.slots = l.slots ∧ l'.live = l.live ∧ l'.pool.retain = l.pool.retain ∧
      l'.lent = l.lent ++ [o] ∧
      ((l.pool.idle = o :: l'.pool.idle ∧ l'.nextSerial = l.nextSerial) ∨
        (l.pool.idle = [] ∧ o = PoolObject.fresh l.nextSerial ∧ l'.pool.idle = [] ∧
          l'.nextSerial = l.nextSerial + 1)) := by
  unfold draw at hd
  split at hd
  · rename_i hlive
    cases htake : l.pool.take? with
    | some r =>
      obtain ⟨o', p⟩ := r
      obtain ⟨hidle, hretain⟩ := (Pool.take?_eq_some_iff l.pool o' p).1 htake
      simp only [htake, Option.some.injEq, Prod.mk.injEq] at hd
      obtain ⟨rfl, rfl⟩ := hd
      exact ⟨hlive, rfl, rfl, hretain, rfl, .inl ⟨hidle, rfl⟩⟩
    | none =>
      have hidle : l.pool.idle = [] := by
        unfold Pool.take? at htake
        split at htake
        · assumption
        · cases htake
      simp only [htake, Option.some.injEq, Prod.mk.injEq] at hd
      obtain ⟨rfl, rfl⟩ := hd
      exact ⟨hlive, rfl, rfl, rfl, rfl, .inr ⟨hidle, rfl, hidle, rfl⟩⟩
  · cases hd

theorem mem_lent_of_draw {l l' : Lending} {o : PoolObject} (hd : l.draw = some (o, l')) :
    o ∈ l'.lent := by
  rw [(draw_eq_some hd).2.2.2.2.1]
  exact List.mem_append_right _ (List.mem_singleton_self o)

/-- The drawn object is the pending one, lent with no slot holding it. -/
theorem Consistent.draw {l l' : Lending} {o : PoolObject} (h : l.Consistent none)
    (hd : l.draw = some (o, l')) : l'.Consistent (some o.serial) := by
  obtain ⟨-, hslots, -, hretain, hlent, hcase⟩ := draw_eq_some hd
  have hheld : ∀ s, l'.holds s = l.holds s := fun s => by simp only [holds, hslots]
  -- the slots are as they were, and the one new lent object is the pending one
  have hheld_lent : ∀ s, l'.holds s = true → s ∈ l'.lent.map (·.serial) := by
    intro s hs
    rw [hheld] at hs
    rw [hlent, List.map_append]
    exact List.mem_append_left _ (h.held_lent s hs)
  have hlent_held : ∀ p ∈ l'.lent, some o.serial ≠ some p.serial → l'.holds p.serial = true := by
    intro p hp hne
    rw [hlent] at hp
    rcases List.mem_append.1 hp with hp | hp
    · rw [hheld]
      exact h.lent_held p hp (by simp)
    · rw [List.mem_singleton.1 hp] at hne
      exact absurd rfl hne
  rcases hcase with ⟨hidle, hnext⟩ | ⟨hidle, rfl, hidle', hnext⟩
  · -- the front of the free list moves to the lent objects
    have hobj : (l.objects.map (·.serial)).Perm (l'.objects.map (·.serial)) := by
      simp only [objects, hidle, hlent, List.map_append, List.map_cons, List.map_nil]
      rw [List.cons_append, ← List.append_assoc]
      exact (List.perm_append_singleton _ _).symm
    refine
      { idle_le := ?_
        nodup := hobj.nodup_iff.1 h.nodup
        held_lent := hheld_lent
        lent_held := hlent_held
        slots_nodup := hslots ▸ h.slots_nodup
        serial_lt := fun p hp => ?_
        idle_cleared := fun p hp =>
          h.idle_cleared p (by rw [hidle]; exact List.mem_cons_of_mem _ hp) }
    · have := h.idle_le
      rw [hidle, List.length_cons] at this
      omega
    · rw [hnext]
      refine h.serial_lt p ?_
      rw [mem_objects, hidle] at *
      rw [hlent] at hp
      rcases hp with hp | hp
      · exact .inl (List.mem_cons_of_mem _ hp)
      · rcases List.mem_append.1 hp with hp | hp
        · exact .inr hp
        · exact .inl (by rw [List.mem_singleton.1 hp]; exact List.mem_cons_self)
  · -- a fresh object, with a serial number not kept before
    have hfresh : (PoolObject.fresh l.nextSerial).serial ∉ l.objects.map (·.serial) := by
      intro hm
      obtain ⟨p, hp, hps⟩ := List.mem_map.1 hm
      have := h.serial_lt p hp
      simp [PoolObject.fresh] at hps
      omega
    refine
      { idle_le := by rw [hidle']; exact Nat.zero_le _
        nodup := ?_
        held_lent := hheld_lent
        lent_held := hlent_held
        slots_nodup := hslots ▸ h.slots_nodup
        serial_lt := fun p hp => ?_
        idle_cleared := by rw [hidle']; simp }
    · have hnodup := h.nodup
      simp only [objects, hidle, hidle', hlent, List.nil_append, List.map_append] at hnodup hfresh ⊢
      exact List.nodup_append.2 ⟨hnodup, List.nodup_singleton _, fun a ha b hb => by
        rw [List.map_singleton, List.mem_singleton] at hb
        rintro rfl
        exact hfresh (hb ▸ ha)⟩
    · rw [hnext]
      rw [mem_objects, hidle', hlent] at hp
      rcases hp with hp | hp
      · cases hp
      · rcases List.mem_append.1 hp with hp | hp
        · exact Nat.lt_succ_of_lt (h.serial_lt p (mem_objects.2 (.inr hp)))
        · rw [List.mem_singleton.1 hp]
          exact Nat.lt_succ_self _

theorem draw_isSome {l : Lending} (hlive : l.live = true) : ∃ o l', l.draw = some (o, l') := by
  unfold draw
  rw [if_pos hlive]
  exact ⟨_, _, rfl⟩

theorem point_of_holder?_none {l : Lending} {slot : Bytes} {s : Nat}
    (hold : l.holder? slot = none) :
    l.point slot s = { l with slots := assign l.slots slot s } := by
  unfold point
  rw [hold]

theorem point_of_holder?_some {l : Lending} {slot : Bytes} {s t : Nat}
    (hold : l.holder? slot = some t) :
    l.point slot s = ({ l with slots := assign l.slots slot s } : Lending).settle t := by
  unfold point
  rw [hold]

@[simp] theorem slots_point (l : Lending) (slot : Bytes) (s : Nat) :
    (l.point slot s).slots = assign l.slots slot s := by
  cases hold : l.holder? slot with
  | none => rw [point_of_holder?_none hold]
  | some t => rw [point_of_holder?_some hold, slots_settle]

@[simp] theorem retain_point (l : Lending) (slot : Bytes) (s : Nat) :
    (l.point slot s).pool.retain = l.pool.retain := by
  cases hold : l.holder? slot with
  | none => rw [point_of_holder?_none hold]
  | some t => rw [point_of_holder?_some hold, retain_settle]

@[simp] theorem nextSerial_point (l : Lending) (slot : Bytes) (s : Nat) :
    (l.point slot s).nextSerial = l.nextSerial := by
  cases hold : l.holder? slot with
  | none => rw [point_of_holder?_none hold]
  | some t => rw [point_of_holder?_some hold, nextSerial_settle]

theorem acquire_eq_some {l l' : Lending} {slot : Bytes} {o : PoolObject}
    (ha : l.acquire slot = some (o, l')) :
    ∃ l₁, l.draw = some (o, l₁) ∧ l' = l₁.point slot o.serial := by
  unfold acquire at ha
  cases hd : l.draw with
  | none => simp [hd] at ha
  | some r =>
    obtain ⟨o₁, l₁⟩ := r
    simp only [hd, Option.map_some, Option.some.injEq, Prod.mk.injEq] at ha
    obtain ⟨rfl, rfl⟩ := ha
    exact ⟨l₁, rfl, rfl⟩

theorem release_eq_some {l l' : Lending} {slot : Bytes} (hr : l.release slot = some l') :
    ∃ t, l.holder? slot = some t ∧
      l' = ({ l with slots := l.slots.filter (·.1 != slot) } : Lending).settle t := by
  unfold release at hr
  cases hold : l.holder? slot with
  | none => simp [hold] at hr
  | some t =>
    simp only [hold, Option.map_some, Option.some.injEq] at hr
    exact ⟨t, rfl, hr.symm⟩

theorem set_eq_some {l l' : Lending} {slot v : Bytes} (hs : l.set slot v = some l') :
    ∃ t, l' = { l with
      lent := l.lent.map fun o => if o.serial == t then { o with value := v } else o } := by
  unfold Lending.set at hs
  cases hold : l.holder? slot with
  | none => simp [hold] at hs
  | some t =>
    simp only [hold, Option.map_some, Option.some.injEq] at hs
    exact ⟨t, hs.symm⟩

/-- Pointing a slot at a lent object, the pending one or another: the object the slot held
before becomes the pending one. -/
theorem Consistent.assign {l : Lending} {e : Option Nat} (h : l.Consistent e) (slot : Bytes)
    {s : Nat} (hs : s ∈ l.lent.map (·.serial)) (he : e = none ∨ e = some s) :
    ({ l with slots := assign l.slots slot s } : Lending).Consistent (l.holder? slot) := by
  refine h.withSlots (nodup_assign h.slots_nodup slot s) (fun p hp => ?_) (fun o ho hne => ?_)
  · rcases mem_assign.1 hp with rfl | ⟨hp, -⟩
    · exact hs
    · exact h.held_lent _ (holds_iff.2 ⟨_, hp⟩)
  · by_cases hos : o.serial = s
    · exact ⟨slot, mem_assign.2 (.inl (by rw [hos]))⟩
    · have he' : e ≠ some o.serial := by
        rcases he with rfl | rfl
        · simp
        · simpa [eq_comm] using hos
      obtain ⟨slot', hslot'⟩ := holds_iff.1 (h.lent_held o ho he')
      exact ⟨slot', mem_assign.2 (.inr ⟨hslot', ne_of_lookup_ne h.slots_nodup hne hslot'⟩)⟩

theorem Consistent.point {l : Lending} {e : Option Nat} (h : l.Consistent e) {slot : Bytes}
    {s : Nat} (hs : s ∈ l.lent.map (·.serial)) (he : e = none ∨ e = some s) :
    (l.point slot s).Consistent none := by
  have hassign := h.assign slot hs he
  cases hold : l.holder? slot with
  | none =>
    rw [hold] at hassign
    rw [point_of_holder?_none hold]
    exact hassign
  | some t =>
    rw [hold] at hassign
    rw [point_of_holder?_some hold]
    exact hassign.settle

/-- Letting a slot go: the object it held becomes the pending one. -/
theorem Consistent.letGo {l : Lending} (h : l.Consistent none) {slot : Bytes} {t : Nat}
    (hold : l.holder? slot = some t) :
    ({ l with slots := l.slots.filter (·.1 != slot) } : Lending).Consistent (some t) := by
  refine h.withSlots ((List.filter_sublist.map Prod.fst).nodup h.slots_nodup)
    (fun p hp => h.held_lent _ (holds_iff.2 ⟨p.1, (List.mem_filter.1 hp).1⟩)) (fun o ho hne => ?_)
  obtain ⟨slot', hslot'⟩ := holds_iff.1 (h.lent_held o ho (by simp))
  -- the slot let go held `t`, and this object is another
  have hother : slot' ≠ slot := ne_of_lookup_ne h.slots_nodup
    (show l.holder? slot ≠ some o.serial by rw [hold]; exact hne) hslot'
  exact ⟨slot', List.mem_filter.2 ⟨hslot', by simpa using hother⟩⟩

theorem Consistent.release {l l' : Lending} (h : l.Consistent none) {slot : Bytes}
    (hr : l.release slot = some l') : l'.Consistent none := by
  obtain ⟨t, hold, rfl⟩ := release_eq_some hr
  exact (h.letGo hold).settle

theorem Consistent.acquire {l l' : Lending} (h : l.Consistent none) {slot : Bytes}
    {o : PoolObject} (ha : l.acquire slot = some (o, l')) : l'.Consistent none := by
  obtain ⟨l₁, hd, rfl⟩ := acquire_eq_some ha
  exact (h.draw hd).point (List.mem_map_of_mem (mem_lent_of_draw hd)) (.inr rfl)

theorem Consistent.set {l l' : Lending} {e : Option Nat} (h : l.Consistent e) {slot v : Bytes}
    (hs : l.set slot v = some l') : l'.Consistent e := by
  obtain ⟨t, rfl⟩ := set_eq_some hs
  exact h.mapLent _ fun o => by split <;> rfl

/-! ## What settling and pointing change -/

/-- Pointing a slot elsewhere keeps held every object that the slot did not hold. -/
theorem holds_assign {l : Lending} (hnodup : (l.slots.map Prod.fst).Nodup) {slot : Bytes}
    {s x : Nat} (hx : l.holder? slot ≠ some x) (hheld : l.holds x = true) :
    ({ l with slots := assign l.slots slot s } : Lending).holds x = true := by
  obtain ⟨slot', hm⟩ := holds_iff.1 hheld
  exact holds_iff.2 ⟨slot', mem_assign.2 (.inr ⟨hm, ne_of_lookup_ne hnodup hx hm⟩)⟩

/-- Letting a slot go keeps held every object that the slot did not hold. -/
theorem holds_filter {l : Lending} (hnodup : (l.slots.map Prod.fst).Nodup) {slot : Bytes}
    {x : Nat} (hx : l.holder? slot ≠ some x) (hheld : l.holds x = true) :
    ({ l with slots := l.slots.filter (·.1 != slot) } : Lending).holds x = true := by
  obtain ⟨slot', hm⟩ := holds_iff.1 hheld
  refine holds_iff.2 ⟨slot', List.mem_filter.2 ⟨hm, ?_⟩⟩
  simpa using ne_of_lookup_ne hnodup hx hm

/-- What settling the pending object leaves: objects kept before, the pending one among them
only while a slot still holds it; or the pending object, cleared, its last handle gone. -/
theorem Consistent.mem_objects_settle {l : Lending} {t : Nat} (h : l.Consistent (some t))
    (ht : t ∈ l.lent.map (·.serial)) {o' : PoolObject} (ho' : o' ∈ (l.settle t).objects) :
    (o' ∈ l.objects ∧ (o'.serial = t → l.holds t = true)) ∨
      ∃ o ∈ l.lent, o.serial = t ∧ l.holds t = false ∧ o' = o.cleared := by
  by_cases hheld : l.holds t = true
  · rw [settle_of_holds hheld] at ho'
    exact .inl ⟨ho', fun _ => hheld⟩
  have hfree : l.holds t = false := by simpa using hheld
  obtain ⟨o, ho, rfl⟩ := List.mem_map.1 ht
  rw [h.settle_eq ho hfree] at ho'
  have hcases : o' ∈ l.pool.idle ∨ o' = o.cleared ∨
      o' ∈ l.lent.filter (·.serial != o.serial) := by
    rcases mem_objects.1 ho' with hidle | hrest
    · exact (Pool.mem_idle_give hidle).imp_right .inl
    · exact .inr (.inr hrest)
  rcases hcases with hidle | rfl | hrest
  · -- an idle object never shares the serial number of a lent one
    refine .inl ⟨mem_objects.2 (.inl hidle), fun hs => ?_⟩
    have hlent : o'.serial ∈ l.lent.map (·.serial) := by
      rw [hs]
      exact List.mem_map_of_mem ho
    exact absurd hlent (h.not_mem_lent_of_idle hidle)
  · exact .inr ⟨o, ho, rfl, hfree, rfl⟩
  · obtain ⟨hrest, hne⟩ := List.mem_filter.1 hrest
    exact .inl ⟨mem_objects.2 (.inr hrest), fun hs => by simp [hs] at hne⟩

end Lending

namespace Service.PoolStep

@[simp] theorem update_snd (l : Lending) (e : BadInput) (r : Option Lending) :
    (update l e r).2 = r.getD l := by
  cases r <;> rfl

end Service.PoolStep

open Service in
/-- Every step of a pool request keeps the bookkeeping in order. -/
theorem Lending.Consistent.run {l : Lending} (h : l.Consistent none) (c : PoolStep) :
    (PoolStep.run l c).2.Consistent none := by
  cases c with
  | acquire slot =>
    simp only [PoolStep.run]
    split
    · next o l' ha => exact h.acquire ha
    · exact h
  | set slot v =>
    rw [PoolStep.run, PoolStep.update_snd]
    cases hs : l.set slot v with
    | none => exact h
    | some l' => exact h.set hs
  | get slot =>
    simp only [PoolStep.run]
    split <;> exact h
  | release slot =>
    rw [PoolStep.run, PoolStep.update_snd]
    cases hr : l.release slot with
    | none => exact h
    | some l' => exact h.release hr
  | copy src dst =>
    simp only [PoolStep.run]
    split
    · next s d hs =>
      exact h.point (h.held_lent s (Lending.holds_of_holder? h.slots_nodup hs)) (.inl rfl)
    · exact h
    · exact h
  | idle =>
    simp only [PoolStep.run]
    split <;> exact h
  | shrink =>
    rw [PoolStep.run, PoolStep.update_snd]
    unfold Lending.shrink
    split
    · exact h.shrink
    · exact h
  | destroy =>
    rw [PoolStep.run, PoolStep.update_snd]
    unfold Lending.destroy
    split
    · exact h.destroy
    · exact h

open Service in
/-- No step changes how many idle objects the pool keeps at most, and serial numbers only grow. -/
theorem Lending.retain_run_and_nextSerial_le (l : Lending) (c : PoolStep) :
    (PoolStep.run l c).2.pool.retain = l.pool.retain ∧
      l.nextSerial ≤ (PoolStep.run l c).2.nextSerial := by
  cases c with
  | acquire slot =>
    simp only [PoolStep.run]
    split
    · next o l' ha =>
      obtain ⟨l₁, hd, rfl⟩ := Lending.acquire_eq_some ha
      obtain ⟨-, -, -, hretain, -, hcase⟩ := Lending.draw_eq_some hd
      rw [Lending.retain_point, Lending.nextSerial_point, hretain]
      refine ⟨rfl, ?_⟩
      rcases hcase with ⟨-, hnext⟩ | ⟨-, -, -, hnext⟩ <;> omega
    · exact ⟨rfl, Nat.le_refl _⟩
  | set slot v =>
    rw [PoolStep.run, PoolStep.update_snd]
    cases hs : l.set slot v with
    | none => exact ⟨rfl, Nat.le_refl _⟩
    | some l' =>
      obtain ⟨t, rfl⟩ := Lending.set_eq_some hs
      exact ⟨rfl, Nat.le_refl _⟩
  | get slot =>
    simp only [PoolStep.run]
    split <;> exact ⟨rfl, Nat.le_refl _⟩
  | release slot =>
    rw [PoolStep.run, PoolStep.update_snd]
    cases hr : l.release slot with
    | none => exact ⟨rfl, Nat.le_refl _⟩
    | some l' =>
      obtain ⟨t, -, rfl⟩ := Lending.release_eq_some hr
      rw [Option.getD_some, Lending.retain_settle, Lending.nextSerial_settle]
      exact ⟨rfl, Nat.le_refl _⟩
  | copy src dst =>
    simp only [PoolStep.run]
    split
    · rw [Lending.retain_point, Lending.nextSerial_point]
      exact ⟨rfl, Nat.le_refl _⟩
    · exact ⟨rfl, Nat.le_refl _⟩
    · exact ⟨rfl, Nat.le_refl _⟩
  | idle =>
    simp only [PoolStep.run]
    split <;> exact ⟨rfl, Nat.le_refl _⟩
  | shrink =>
    rw [PoolStep.run, PoolStep.update_snd]
    unfold Lending.shrink
    split <;> exact ⟨rfl, Nat.le_refl _⟩
  | destroy =>
    rw [PoolStep.run, PoolStep.update_snd]
    unfold Lending.destroy
    split <;> exact ⟨rfl, Nat.le_refl _⟩

end IndexedTree
