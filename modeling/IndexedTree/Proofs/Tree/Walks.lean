import IndexedTree.Proofs.Tree.WellFormed

/-!
# Walks along live child references

`Below t s k d` says that `d` is reached from `s` by following `k` live child references. The two
walks of a tree are read through it: a record with its level is in the pre-order walk from `s` when
it lies `level` references below `s` within the depth bound (`mem_preorderWithin`), and a record is
in a level of the breadth-first walk when it lies that many references below the first level.

In a well-formed tree the live child relation is a forest whose references point from older
records to younger ones: each record has at most one live parent (`WellFormed.parent_eq`) and lies
below its ancestors by at least as many stamps as steps (`Below.add_le`). So a record is reached
from another by one number of steps only, two records below which one record lies are one below
the other, and a path from a live record passes distinct live records only: fewer steps than the
tree has records (`Below.lt_size`). From these the walks visit every record once
(`nodup_subtree`, `nodup_flatten_levels`), and their depth bounds are never reached: a larger bound
gives the same walk (`preorderWithin_size_add`, `levelsWithin_size_add`).
-/

namespace IndexedTree

namespace Tree

variable {α : Type}

/-- `t.Below s k d`: `d` is reached from `s` by following `k` live child references. -/
inductive Below (t : Tree α) : Stamp → Nat → Stamp → Prop
  | refl (s : Stamp) : t.Below s 0 s
  | child {s c d : Stamp} {k : Nat} : c ∈ t.liveChildren s → t.Below c k d → t.Below s (k + 1) d

namespace Below

variable {t : Tree α}

theorem zero_iff {s d : Stamp} : t.Below s 0 d ↔ d = s := by
  constructor
  · rintro ⟨⟩
    rfl
  · rintro rfl
    exact .refl _

/-- One more reference at the end of a path. -/
theorem tail {s p c : Stamp} {k : Nat} (h : t.Below s k p) (hc : c ∈ t.liveChildren p) :
    t.Below s (k + 1) c := by
  induction h with
  | refl s => exact .child hc (.refl c)
  | child hsc _ ih => exact .child hsc (ih hc)

/-- The last reference of a path that has one. -/
theorem last {s d : Stamp} {k : Nat} (h : t.Below s (k + 1) d) :
    ∃ p, t.Below s k p ∧ d ∈ t.liveChildren p := by
  induction k generalizing s with
  | zero =>
    cases h with
    | child hc hd => exact ⟨s, .refl s, zero_iff.1 hd ▸ hc⟩
  | succ k ih =>
    cases h with
    | child hc hd =>
      obtain ⟨p, hp, hdp⟩ := ih hd
      exact ⟨p, .child hc hp, hdp⟩

theorem trans {a b d : Stamp} {i j : Nat} (hab : t.Below a i b) (hbd : t.Below b j d) :
    t.Below a (i + j) d := by
  induction hab with
  | refl => simpa using hbd
  | child hc _ ih =>
    rw [Nat.add_right_comm]
    exact .child hc (ih hbd)

/-- A path from a live record ends at a live record. -/
theorem live {s d : Stamp} {k : Nat} (h : t.Below s k d) (hs : t.live s) : t.live d := by
  induction h with
  | refl => exact hs
  | child hc _ ih => exact ih (mem_liveChildren.1 hc).2

/-- A path survives a change that keeps every live reference. -/
theorem mono {t' : Tree α} (h : ∀ p c, c ∈ t.liveChildren p → c ∈ t'.liveChildren p) {s d : Stamp}
    {k : Nat} (hb : t.Below s k d) : t'.Below s k d := by
  induction hb with
  | refl s => exact .refl s
  | child hc _ ih => exact .child (h _ _ hc) ih

end Below

/-! ## The forest of live references -/

/-- A live record is a key of the records. -/
theorem mem_keys_of_live {t : Tree α} {s : Stamp} (hs : t.live s) : s ∈ t.records.keys := by
  rw [live_eq, ← Std.HashMap.mem_iff_isSome_getElem?] at hs
  exact Std.HashMap.mem_keys.2 hs

section Forest

variable {t : Tree α} (hw : t.WellFormed)
include hw

/-- A live child was drawn after its parent. -/
theorem WellFormed.lt_of_mem_liveChildren {p c : Stamp} (h : c ∈ t.liveChildren p) : p < c :=
  (hw.ref_lt p c (mem_liveChildren.1 h).1).1

/-- A record has at most one live parent. -/
theorem WellFormed.parent_eq {p q c : Stamp} (hp : c ∈ t.liveChildren p)
    (hq : c ∈ t.liveChildren q) : p = q :=
  hw.ref_unique p q c (mem_liveChildren.1 hp).1 (mem_liveChildren.1 hq).1

/-- The live children of a record come in the order they were drawn. -/
theorem WellFormed.liveChildren_sorted (p : Stamp) : (t.liveChildren p).Pairwise (· < ·) := by
  rw [liveChildren_eq]
  exact (hw.refs_sorted p).filter _

theorem WellFormed.nodup_liveChildren (p : Stamp) : (t.liveChildren p).Nodup :=
  (hw.liveChildren_sorted p).imp Nat.ne_of_lt

/-- Each step down a path passes to a younger record. -/
theorem Below.add_le {s d : Stamp} {k : Nat} (h : t.Below s k d) : s + k ≤ d := by
  induction h with
  | refl => simp
  | child hc _ ih =>
    have := hw.lt_of_mem_liveChildren hc
    unfold Stamp at *
    omega

/-- A path of one or more live references never returns to where it started. -/
theorem Below.ne_of_succ {s d : Stamp} {k : Nat} (h : t.Below s (k + 1) d) : d ≠ s := by
  have := h.add_le hw
  unfold Stamp at *
  omega

/-- A record is reached from another by one number of steps only. -/
theorem Below.steps_eq {s d : Stamp} {i j : Nat} (hi : t.Below s i d) (hj : t.Below s j d) :
    i = j := by
  induction i generalizing d j with
  | zero =>
    have := hj.add_le hw
    rw [Below.zero_iff.1 hi] at this
    unfold Stamp at *
    omega
  | succ i ih =>
    obtain ⟨p, hp, hdp⟩ := hi.last
    cases j with
    | zero =>
      have := hi.add_le hw
      rw [Below.zero_iff.1 hj] at this
      unfold Stamp at *
      omega
    | succ j =>
      obtain ⟨q, hq, hdq⟩ := hj.last
      rw [ih hp (hw.parent_eq hdp hdq ▸ hq)]

/-- Two records above a common one lie one below the other. -/
theorem Below.comparable {a b d : Stamp} {i j : Nat} (ha : t.Below a i d) (hb : t.Below b j d) :
    (∃ m, t.Below a m b) ∨ (∃ m, t.Below b m a) := by
  induction i generalizing d j with
  | zero => exact .inr ⟨j, Below.zero_iff.1 ha ▸ hb⟩
  | succ i ih =>
    obtain ⟨p, hp, hdp⟩ := ha.last
    cases j with
    | zero => exact .inl ⟨i + 1, Below.zero_iff.1 hb ▸ ha⟩
    | succ j =>
      obtain ⟨q, hq, hdq⟩ := hb.last
      exact ih hp (hw.parent_eq hdp hdq ▸ hq)

/-- Two children of one record have no record below both. -/
theorem Below.eq_of_siblings {s c₁ c₂ d : Stamp} {i j : Nat} (h₁ : c₁ ∈ t.liveChildren s)
    (h₂ : c₂ ∈ t.liveChildren s) (hd₁ : t.Below c₁ i d) (hd₂ : t.Below c₂ j d) : c₁ = c₂ := by
  -- one child lies below the other; were they different, their parent would lie below the
  -- upper child, which was drawn after it
  have key : ∀ {a b : Stamp} {m : Nat}, a ∈ t.liveChildren s → b ∈ t.liveChildren s →
      t.Below a m b → a = b := by
    intro a b m ha hb hab
    cases m with
    | zero => exact (Below.zero_iff.1 hab).symm
    | succ m =>
      obtain ⟨q, hq, hbq⟩ := hab.last
      have hqs := hw.parent_eq hbq hb
      have := hq.add_le hw
      have := hw.lt_of_mem_liveChildren ha
      unfold Stamp at *
      omega
  rcases hd₁.comparable hw hd₂ with ⟨m, h⟩ | ⟨m, h⟩
  · exact key h₁ h₂ h
  · exact (key h₂ h₁ h).symm

/-- A path from a live record passes distinct live records: fewer steps than the tree has
records. -/
theorem Below.lt_size {s d : Stamp} {k : Nat} (h : t.Below s k d) (hs : t.live s) :
    k < t.records.size := by
  -- the stamps along the path, each live and larger than the one before
  have path : ∀ {s d k}, t.Below s k d → t.live s →
      ∃ ps : List Stamp, ps.length = k + 1 ∧ ps.Pairwise (· < ·) ∧ ∀ p ∈ ps, t.live p ∧ s ≤ p := by
    intro s d k h hs
    induction h with
    | refl s => exact ⟨[s], rfl, List.pairwise_singleton _ _, by simp [hs]⟩
    | @child s c d k hc _ ih =>
      obtain ⟨ps, hlen, hsorted, hps⟩ := ih (mem_liveChildren.1 hc).2
      have hsc := hw.lt_of_mem_liveChildren hc
      refine ⟨s :: ps, by simp [hlen], List.pairwise_cons.2 ⟨fun p hp => ?_, hsorted⟩, ?_⟩
      · exact Nat.lt_of_lt_of_le hsc (hps p hp).2
      · intro p hp
        rcases List.mem_cons.1 hp with rfl | hp
        · exact ⟨hs, Nat.le_refl _⟩
        · exact ⟨(hps p hp).1, by have := (hps p hp).2; unfold Stamp at *; omega⟩
  obtain ⟨ps, hlen, hsorted, hps⟩ := path h hs
  have hsub : ps ⊆ t.records.keys := fun p hp => mem_keys_of_live (hps p hp).1
  -- the path's stamps are distinct keys of the records
  calc k < ps.length := by rw [hlen]; exact Nat.lt_succ_self k
    _ ≤ t.records.keys.length := List.Nodup.length_le_of_subset (hsorted.imp Nat.ne_of_lt) hsub
    _ = t.records.size := Std.HashMap.length_keys

end Forest

/-! ## The pre-order walk -/

/-- A tree with a live record has records. -/
theorem records_size_pos {t : Tree α} {s : Stamp} (hs : t.live s) : 0 < t.records.size := by
  have hne := Std.HashMap.isEmpty_eq_false_iff_exists_mem.2 ⟨s, Std.HashMap.mem_iff_contains.2 hs⟩
  rw [Std.HashMap.isEmpty_eq_size_eq_zero, beq_eq_false_iff_ne] at hne
  omega

theorem mem_preorderWithin {t : Tree α} {fuel level : Nat} {s d : Stamp} {l : Nat} :
    (d, l) ∈ t.preorderWithin fuel level s ↔ ∃ k, k < fuel ∧ t.Below s k d ∧ l = level + k := by
  induction fuel generalizing level s with
  | zero => simp [preorderWithin]
  | succ fuel ih =>
    simp only [preorderWithin, List.mem_cons, Prod.mk.injEq, List.mem_flatMap, ih]
    constructor
    · rintro (⟨rfl, rfl⟩ | ⟨c, hc, k, hk, hd, rfl⟩)
      · exact ⟨0, Nat.succ_pos _, .refl d, rfl⟩
      · exact ⟨k + 1, by omega, .child hc hd, by omega⟩
    · rintro ⟨k, hk, hd, rfl⟩
      cases hd with
      | refl => exact .inl ⟨rfl, rfl⟩
      | @child _ c _ k hc hd => exact .inr ⟨c, hc, k, by omega, hd, by omega⟩

theorem mem_map_fst_preorderWithin {t : Tree α} {fuel level : Nat} {s d : Stamp} :
    d ∈ (t.preorderWithin fuel level s).map Prod.fst ↔ ∃ k, k < fuel ∧ t.Below s k d := by
  simp only [List.mem_map, Prod.exists, exists_and_right, exists_eq_right, mem_preorderWithin]
  constructor
  · rintro ⟨l, k, hk, hd, -⟩
    exact ⟨k, hk, hd⟩
  · rintro ⟨k, hk, hd⟩
    exact ⟨level + k, k, hk, hd, rfl⟩

/-- A depth bound that no path reaches gives the walk of every larger bound. -/
theorem preorderWithin_fuel_congr {t : Tree α} {fuel fuel' : Nat} {s : Stamp}
    (h : ∀ d, ¬t.Below s fuel d) (hle : fuel ≤ fuel') (level : Nat) :
    t.preorderWithin fuel level s = t.preorderWithin fuel' level s := by
  induction fuel generalizing fuel' s level with
  | zero => exact absurd (.refl s) (h s)
  | succ fuel ih =>
    obtain ⟨fuel', rfl⟩ : ∃ f, fuel' = f + 1 := ⟨fuel' - 1, by omega⟩
    simp only [preorderWithin]
    congr 1
    refine List.flatMap_congr fun c hc => ih (fun d hd => h d (.child hc hd)) (by omega) _

section Forest

variable {t : Tree α} (hw : t.WellFormed)
include hw

/-- The walk from a live record is stable: the bound `t.records.size` is never reached. -/
theorem preorderWithin_size_add {s : Stamp} (hs : t.live s) (k level : Nat) :
    t.preorderWithin (t.records.size + k) level s = t.preorderWithin t.records.size level s :=
  (preorderWithin_fuel_congr (fun _ hd => Nat.lt_irrefl _ (hd.lt_size hw hs))
    (Nat.le_add_right _ _) level).symm

/-- The subtree of a live record holds exactly the records below it. -/
theorem mem_subtree {s d : Stamp} (hs : t.live s) : d ∈ t.subtree s ↔ ∃ k, t.Below s k d := by
  unfold subtree preorder
  rw [mem_map_fst_preorderWithin]
  constructor
  · rintro ⟨k, -, hd⟩
    exact ⟨k, hd⟩
  · rintro ⟨k, hd⟩
    exact ⟨k, hd.lt_size hw hs, hd⟩

/-- The pre-order walk visits each record once. -/
theorem nodup_preorderWithin (fuel level : Nat) (s : Stamp) :
    ((t.preorderWithin fuel level s).map Prod.fst).Nodup := by
  induction fuel generalizing level s with
  | zero => simp [preorderWithin]
  | succ fuel ih =>
    simp only [preorderWithin, List.map_cons, List.map_flatMap]
    refine List.nodup_cons.2 ⟨?_, List.nodup_flatMap.2 ⟨fun c _ => ih _ c, ?_⟩⟩
    · -- every record of the rest lies strictly below `s`, hence is younger
      simp only [List.mem_flatMap, not_exists, not_and]
      intro c hc hs
      obtain ⟨k, -, hk⟩ := mem_map_fst_preorderWithin.1 hs
      have := hk.add_le hw
      have := hw.lt_of_mem_liveChildren hc
      unfold Stamp at *
      omega
    · -- distinct children have disjoint subtrees
      refine (hw.nodup_liveChildren s).imp_of_mem fun {c₁ c₂} h₁ h₂ hne => ?_
      intro d hd₁ hd₂
      obtain ⟨i, -, hi⟩ := mem_map_fst_preorderWithin.1 hd₁
      obtain ⟨j, -, hj⟩ := mem_map_fst_preorderWithin.1 hd₂
      exact hne (hi.eq_of_siblings hw h₁ h₂ hj)

theorem nodup_subtree (s : Stamp) : (t.subtree s).Nodup := nodup_preorderWithin hw _ _ s

end Forest

/-! ## The breadth-first walk -/

theorem levelsWithin_nil (t : Tree α) (fuel : Nat) : t.levelsWithin fuel [] = [] := by
  cases fuel <;> rfl

/-- A depth bound that no path from the first level reaches gives the levels of every larger
bound. -/
theorem levelsWithin_fuel_congr {t : Tree α} {fuel fuel' : Nat} {L : List Stamp}
    (h : ∀ x ∈ L, ∀ d, ¬t.Below x fuel d) (hle : fuel ≤ fuel') :
    t.levelsWithin fuel L = t.levelsWithin fuel' L := by
  induction fuel generalizing fuel' L with
  | zero =>
    cases L with
    | nil => rw [levelsWithin_nil, levelsWithin_nil]
    | cons x _ => exact absurd (.refl x) (h x List.mem_cons_self x)
  | succ fuel ih =>
    obtain ⟨fuel', rfl⟩ : ∃ f, fuel' = f + 1 := ⟨fuel' - 1, by omega⟩
    cases L with
    | nil => rw [levelsWithin_nil, levelsWithin_nil]
    | cons x xs =>
      simp only [levelsWithin]
      congr 1
      refine ih (fun y hy d hd => ?_) (by omega)
      obtain ⟨z, hz, hyz⟩ := List.mem_flatMap.1 hy
      exact h z hz d (.child hyz hd)

section Forest

variable {t : Tree α} (hw : t.WellFormed)
include hw

/-- The children of a list of distinct records are distinct. -/
theorem nodup_flatMap_liveChildren {L : List Stamp} (hL : L.Nodup) :
    (L.flatMap t.liveChildren).Nodup := by
  refine List.nodup_flatMap.2 ⟨fun p _ => hw.nodup_liveChildren p, ?_⟩
  exact hL.imp fun hne c hc₁ hc₂ => hne (hw.parent_eq hc₁ hc₂)

/-- The levels below a first level of distinct records that all lie `i` references below `r`
hold each record once, every one at least `i` references below `r`. -/
theorem nodup_flatten_levelsWithin {r : Stamp} (fuel i : Nat) (L : List Stamp) (hL : L.Nodup)
    (hdepth : ∀ x ∈ L, t.Below r i x) :
    (t.levelsWithin fuel L).flatten.Nodup ∧
      ∀ y ∈ (t.levelsWithin fuel L).flatten, ∃ j, i ≤ j ∧ t.Below r j y := by
  induction fuel generalizing i L with
  | zero => simp [levelsWithin]
  | succ fuel ih =>
    cases L with
    | nil => simp [levelsWithin_nil]
    | cons x xs =>
      simp only [levelsWithin, List.flatten_cons]
      -- the next level lies one reference further down
      have hnext : ∀ y ∈ (x :: xs).flatMap t.liveChildren, t.Below r (i + 1) y := by
        intro y hy
        obtain ⟨z, hz, hyz⟩ := List.mem_flatMap.1 hy
        exact (hdepth z hz).tail hyz
      obtain ⟨hnd, hdeep⟩ := ih (i + 1) _ (nodup_flatMap_liveChildren hw hL) hnext
      refine ⟨List.nodup_append.2 ⟨hL, hnd, ?_⟩, ?_⟩
      · -- a record of this level and one of a later level lie at different depths
        intro a ha b hb hab
        obtain ⟨j, hj, hb'⟩ := hdeep b hb
        have := (hdepth a ha).steps_eq hw (hab ▸ hb')
        omega
      · intro y hy
        rcases List.mem_append.1 hy with hy | hy
        · exact ⟨i, Nat.le_refl _, hdepth y hy⟩
        · obtain ⟨j, hj, hb⟩ := hdeep y hy
          exact ⟨j, by omega, hb⟩

/-- The breadth-first walk visits each record once. -/
theorem nodup_flatten_levels : t.levels.flatten.Nodup := by
  unfold levels
  cases t.rootSlot with
  | none => simp [levelsWithin_nil]
  | some r =>
    exact (nodup_flatten_levelsWithin hw _ 0 [r] (List.nodup_singleton r)
      (by simpa using Below.refl r)).1

/-- The breadth-first walk is stable: its bound `t.records.size + 1` is never reached. -/
theorem levelsWithin_size_add (k : Nat) :
    t.levelsWithin (t.records.size + 1 + k) t.rootSlot.toList = t.levels := by
  unfold levels
  cases hr : t.rootSlot with
  | none => simp [levelsWithin_nil]
  | some r =>
    refine (levelsWithin_fuel_congr (fun x hx d hd => ?_) (Nat.le_add_right _ _)).symm
    rw [Option.toList_some, List.mem_singleton] at hx
    subst hx
    have := hd.lt_size hw (hw.root_live x hr)
    omega

end Forest

end Tree

end IndexedTree
