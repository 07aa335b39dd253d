import IndexedTree.Tree.Print
import IndexedTree.Proofs.Tree.Levels

/-!
# The printer renders the tree in pre-order

The printer walks the tree with a stack of records and their levels: it pops a record, writes its
line, and pushes the record's live children one level down, the last added first, so that they pop
in the order they were added. On a well-formed tree this walk writes the recursive pre-order
rendering of the root slot's record (`text_eq_render`): a record's line, then the rendering of each
of its live children one level down (`render_eq`).

The walk keeps one invariant: what it has still to write is the pre-order walk from each entry of
its stack, top first (`printWalk_eq`). Its bound on pops, the number of records, is never reached,
since the walk from a live record lists distinct live records (`length_preorder_le`). So the printer
writes one line for each record below the root slot's record, at its distance from it, each once
(`mem_printed`, `nodup_printed`), and when the adds of a run name fresh ids, each indexed id has
exactly one line, indented by twice its depth (`Shaped.lines_of_id`).

The main statement is `text_eq_render`.
-/

namespace IndexedTree

namespace Tree

variable {α : Type}

/-- The pre-order rendering of the subtree at `s`, with `s` at `level`: the line of `s`, then the
rendering of each of its live children one level down, first added first (`render_eq`). -/
def render (t : Tree α) (s : Stamp) (level : Nat) : List UInt8 :=
  (t.preorderWithin t.records.size level s).flatMap fun e => t.line e.1 e.2

@[simp] theorem printWalk_nil (t : Tree α) (fuel : Nat) : t.printWalk fuel [] = [] := by
  cases fuel <;> rfl

section WellFormed

variable {t : Tree α} (hw : t.WellFormed)
include hw

/-- The walk from a live record, at full depth, is the record followed by the walks from its live
children one level down. -/
theorem preorderWithin_size_eq_cons {s : Stamp} (hs : t.live s) (level : Nat) :
    t.preorderWithin t.records.size level s =
      (s, level) :: (t.liveChildren s).flatMap (t.preorderWithin t.records.size (level + 1)) := by
  obtain ⟨k, hk⟩ : ∃ k, t.records.size = k + 1 :=
    ⟨_, (Nat.succ_pred_eq_of_pos (records_size_pos hs)).symm⟩
  rw [hk, preorderWithin]
  congr 1
  refine List.flatMap_congr fun c hc =>
    preorderWithin_fuel_congr (fun d hd => ?_) (Nat.le_succ k) (level + 1)
  -- a path of `k` steps below a child is a path of `k + 1` below `s`, longer than any
  have hlt := (Below.child hc hd).lt_size hw hs
  omega

/-- The rendering of a record is its line, then the renderings of its live children one level
down, first added first. -/
theorem render_eq (s : Stamp) (level : Nat) :
    t.render s level =
      t.line s level ++ (t.liveChildren s).flatMap fun c => t.render c (level + 1) := by
  by_cases hs : t.live s
  · rw [render, preorderWithin_size_eq_cons hw hs, List.flatMap_cons, List.flatMap_assoc]
    rfl
  · -- a record that does not live has no line and no children, and the walk meets it alone
    have hnone : t.records[s]? = none := by simpa [live_eq] using hs
    have hkids : t.liveChildren s = [] := by simp [liveChildren, hnone]
    have hline : ∀ l, t.line s l = [] := fun l => by simp [line, node?_eq, hnone]
    rw [hkids, List.flatMap_nil, List.append_nil, hline, render, List.flatMap_eq_nil_iff]
    rintro ⟨d, l⟩ he
    obtain ⟨k, -, hk, -⟩ := mem_preorderWithin.1 he
    cases hk with
    | refl => exact hline l
    | child hc _ => simp [hkids] at hc

/-- The walk from a live record lists distinct live records: no more than the tree has. -/
theorem length_preorder_le {s : Stamp} (hs : t.live s) :
    (t.preorder s).length ≤ t.records.size := by
  have hsub : t.subtree s ⊆ t.records.keys := fun d hd => by
    obtain ⟨k, hk⟩ := (mem_subtree hw hs).1 hd
    exact mem_keys_of_live (hk.live hs)
  calc (t.preorder s).length = (t.subtree s).length := (List.length_map _).symm
    _ ≤ t.records.keys.length := (nodup_subtree hw s).length_le_of_subset hsub
    _ = t.records.size := Std.HashMap.length_keys

/-- The printer's stack walk writes, for each entry of its stack, top first, the pre-order walk
from it, as long as it may pop as many records as these walks list. -/
theorem printWalk_eq (fuel : Nat) (stack : List (Stamp × Nat)) (hlive : ∀ e ∈ stack, t.live e.1)
    (hfuel : (stack.flatMap fun e => t.preorderWithin t.records.size e.2 e.1).length ≤ fuel) :
    t.printWalk fuel stack = stack.flatMap fun e => t.preorderWithin t.records.size e.2 e.1 := by
  induction fuel generalizing stack with
  | zero =>
    cases stack with
    | nil => rfl
    | cons e stack =>
      -- the walk from a live record is not empty, so it does not fit in no pops
      rw [List.flatMap_cons, preorderWithin_size_eq_cons hw (hlive e List.mem_cons_self)] at hfuel
      simp at hfuel
  | succ fuel ih =>
    cases stack with
    | nil => rfl
    | cons e stack =>
      obtain ⟨s, level⟩ := e
      have hs : t.live s := hlive (s, level) List.mem_cons_self
      -- the live children, pushed one level down on top of the rest, are what remains to write
      have hpush : (((t.liveChildren s).map (·, level + 1) ++ stack).flatMap fun e =>
          t.preorderWithin t.records.size e.2 e.1) =
          (t.liveChildren s).flatMap (t.preorderWithin t.records.size (level + 1)) ++
            stack.flatMap fun e => t.preorderWithin t.records.size e.2 e.1 := by
        rw [List.flatMap_append, List.flatMap_map]
      have hlive' : ∀ e ∈ (t.liveChildren s).map (·, level + 1) ++ stack, t.live e.1 := by
        intro e he
        rcases List.mem_append.1 he with hc | hrest
        · obtain ⟨c, hkid, rfl⟩ := List.mem_map.1 hc
          exact (mem_liveChildren.1 hkid).2
        · exact hlive e (List.mem_cons_of_mem _ hrest)
      rw [List.flatMap_cons, preorderWithin_size_eq_cons hw hs] at hfuel ⊢
      rw [printWalk, ih _ hlive' (by rw [hpush]; simpa using hfuel), hpush, List.cons_append]

/-- The printer writes the pre-order walk from the root slot's record. -/
theorem printed_eq : t.printed = t.rootSlot.toList.flatMap t.preorder := by
  unfold printed
  cases hr : t.rootSlot with
  | none => simp
  | some r =>
    have hr' := hw.root_live r hr
    rw [Option.toList_some, List.map_singleton, List.flatMap_singleton,
      printWalk_eq hw _ _ (by simpa using hr') (by simpa [preorder] using length_preorder_le hw hr')]
    simp [preorder]

/-- The printer writes the records below the root slot's record, each at its distance from it. -/
theorem mem_printed {s : Stamp} {level : Nat} :
    (s, level) ∈ t.printed ↔ ∃ r, t.rootSlot = some r ∧ t.Below r level s := by
  rw [printed_eq hw]
  cases hr : t.rootSlot with
  | none => simp
  | some r =>
    simp only [Option.toList_some, List.flatMap_singleton, preorder, mem_preorderWithin,
      Option.some.injEq, exists_eq_left', Nat.zero_add]
    constructor
    · rintro ⟨k, -, hk, rfl⟩
      exact hk
    · intro hk
      exact ⟨level, hk.lt_size hw (hw.root_live r hr), hk, rfl⟩

/-- The printer writes each record once. -/
theorem nodup_printed : (t.printed.map Prod.fst).Nodup := by
  rw [printed_eq hw]
  cases t.rootSlot with
  | none => simp
  | some r => simpa [subtree] using nodup_subtree hw r

/-- The printer's text is the rendering of the root slot's record at level zero. -/
theorem text_eq_render_root : t.text = ⟨t.rootSlot.toList.flatMap fun r => t.render r 0⟩ := by
  rw [text, printed_eq hw, List.flatMap_assoc]
  rfl

end WellFormed

/-- In a shaped tree the printer meets one record with an indexed id: the indexed record, at its
distance from the root slot's record. -/
theorem Shaped.filter_printed_hasId {t : Tree α} (hw : t.WellFormed) (hsh : t.Shaped) {x : Bytes}
    {s r : Stamp} {d : Nat} (hx : t.lookup? x = some s) (hr : t.rootSlot = some r)
    (hd : t.Below r d s) :
    t.printed.filter (fun e => t.hasId x e.1) = [(s, d)] := by
  -- every record with the id is the indexed one, and the walk meets it at its depth
  have honly : ∀ e ∈ t.printed.filter (fun e => t.hasId x e.1), e = (s, d) := by
    rintro ⟨c, l⟩ he
    obtain ⟨hmem, hc⟩ := List.mem_filter.1 he
    obtain ⟨m', hm', hid'⟩ := hasId_iff.1 hc
    have hcs : c = s := by
      have hlook := hsh.lookup?_of_node? hm'
      rw [hid', hx, Option.some.injEq] at hlook
      exact hlook.symm
    subst hcs
    obtain ⟨r', hr', hl⟩ := (mem_printed hw).1 hmem
    rw [hr, Option.some.injEq] at hr'
    subst hr'
    rw [hl.steps_eq hw hd]
  have hin : (s, d) ∈ t.printed.filter (fun e => t.hasId x e.1) :=
    List.mem_filter.2 ⟨(mem_printed hw).2 ⟨r, hr, hd⟩, hw.index_sound x s hx⟩
  have hnodup : (t.printed.filter fun e => t.hasId x e.1).Nodup :=
    ((nodup_printed hw).of_map Prod.fst).filter _
  refine List.perm_singleton.1 ((List.perm_ext_iff_of_nodup hnodup (List.nodup_singleton _)).2
    fun e => ⟨fun he => ?_, fun he => ?_⟩)
  · exact List.mem_singleton.2 (honly e he)
  · rw [List.mem_singleton.1 he]
    exact hin

/-- In a shaped tree an indexed id has exactly one line, indented by twice its depth. -/
theorem Shaped.lines_of_id {t : Tree α} (hw : t.WellFormed) (hsh : t.Shaped) {x : Bytes}
    {s : Stamp} (hx : t.lookup? x = some s) :
    ∃ d, t.depth? x = some d ∧
      (t.printed.filter fun e => t.hasId x e.1).map (fun e => t.line e.1 e.2) =
        [List.replicate (2 * d) 0x20 ++ x.data ++ [0x0A]] := by
  obtain ⟨r, hr, d, hd⟩ := hsh.reached s (hw.index_sound.live hx)
  obtain ⟨m, hm, hid⟩ := hasId_iff.1 (hw.index_sound x s hx)
  refine ⟨d, (hsh.depth?_eq_some_iff hw hr hx).2 hd, ?_⟩
  rw [hsh.filter_printed_hasId hw hx hr hd]
  simp [line, hm, hid]

/-- The printer is a pre-order rendering. On every tree that a run reaches from an empty tree, the
printer's stack walk writes the rendering of the root slot's record at level zero, where a record
renders as its line, two spaces per level, its id and a line feed, followed by the renderings of
its live children one level down, first added first. It writes one line for each record below
the root slot's record, once, at that record's distance from it. When the adds of the run name
fresh ids, each indexed id has exactly one line, indented by twice its depth. -/
theorem text_eq_render (n : Nat) (h : 0 < n) (cs : List (Change α)) :
    let t := (Tree.empty n h : Tree α).applyAll cs
    t.text = ⟨t.rootSlot.toList.flatMap fun r => t.render r 0⟩ ∧
    (∀ s level, t.render s level =
      t.line s level ++ (t.liveChildren s).flatMap fun c => t.render c (level + 1)) ∧
    (t.printed.map Prod.fst).Nodup ∧
    (∀ s level, (s, level) ∈ t.printed ↔ ∃ r, t.rootSlot = some r ∧ t.Below r level s) ∧
    ((Tree.empty n h : Tree α).AddsFresh cs → ∀ x s, t.lookup? x = some s →
      ∃ d, t.depth? x = some d ∧
        (t.printed.filter fun e => t.hasId x e.1).map (fun e => t.line e.1 e.2) =
          [List.replicate (2 * d) 0x20 ++ x.data ++ [0x0A]]) := by
  intro t
  have hw₀ : (Tree.empty n h : Tree α).WellFormed := wellFormed_empty n h
  have hw : t.WellFormed := hw₀.applyAll cs
  refine ⟨text_eq_render_root hw, render_eq hw, nodup_printed hw, fun s level => mem_printed hw,
    fun hfresh x s hx => ?_⟩
  exact Shaped.lines_of_id hw ((shaped_empty n h).applyAll hw₀ cs hfresh) hx

/-- A run that adds a root `r`, the children `a` and `b` under it and `c` under `a`, each id
fresh: the printer renders its tree, in two shards, one line per id at twice its depth. -/
theorem text_eq_render_of_three_levels :
    let cs : List (Change Nat) := [.addRoot ⟨⟨[0x72]⟩, 0⟩, .addChild ⟨⟨[0x61]⟩, 1⟩ ⟨[0x72]⟩,
      .addChild ⟨⟨[0x62]⟩, 2⟩ ⟨[0x72]⟩, .addChild ⟨⟨[0x63]⟩, 3⟩ ⟨[0x61]⟩]
    let t₀ : Tree Nat := Tree.empty 2 (by decide)
    let t := t₀.applyAll cs
    0 < 2 ∧ t₀.AddsFresh cs ∧
    t.text = ⟨t.rootSlot.toList.flatMap fun r => t.render r 0⟩ ∧
    (∀ s level, t.render s level =
      t.line s level ++ (t.liveChildren s).flatMap fun c => t.render c (level + 1)) ∧
    (t.printed.map Prod.fst).Nodup ∧
    (∀ s level, (s, level) ∈ t.printed ↔ ∃ r, t.rootSlot = some r ∧ t.Below r level s) ∧
    (t₀.AddsFresh cs → ∀ x s, t.lookup? x = some s →
      ∃ d, t.depth? x = some d ∧
        (t.printed.filter fun e => t.hasId x e.1).map (fun e => t.line e.1 e.2) =
          [List.replicate (2 * d) 0x20 ++ x.data ++ [0x0A]]) := by
  intro cs t₀ t
  -- the four ids differ and none is in the empty index, so every add names a fresh id
  have hfresh : t₀.AddsFresh cs :=
    (wellFormed_empty 2 (by decide)).addsFresh_of_nodup cs (by decide)
      (fun x _ => by simp [lookup?, Tree.empty])
  exact ⟨by decide, hfresh, text_eq_render 2 (by decide) cs⟩

end Tree

end IndexedTree
