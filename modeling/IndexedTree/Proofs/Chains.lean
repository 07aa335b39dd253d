import IndexedTree.Proofs.ShardedMap
import IndexedTree.Proofs.Runs
import IndexedTree.Service.Ancestry

/-!
# Ancestor chains are snapshots

A chain is written whole when its id is attached and is never patched afterwards. A step writes
the chain of `x` when it attaches or detaches `x`, or resets every chain (`AncestryStep.writes`);
every other step, an attach or a detach of another id included, leaves it as it was
(`chain?_run_of_writes_eq_false`). So after any run the chain of `x` is the one that the latest
step writing it fixed, from the chains as they stood just before that step
(`chain?_runAll_latest`): the empty chain for a root, the parent and the parent's chain at that
moment for an attach, none for a detach or a reset. An attach of `x` under `x` reads the chain
of `x` before it stores the new one.

The queries read the chain: the depth is its length, the ancestor at a level is its entry there,
none past its end, and the parent the ancestor at level zero. The number of chains is the number
of ids that have one (`ShardedMap.encard_isSome_get?`), since every run keeps each id in the shard
its hash picks.

The main statement is `chains_are_snapshots`.
-/

namespace IndexedTree

namespace ShardedMap

variable {α : Type}

/-- In a placed map, `size` counts the keys that `get?` finds. -/
theorem encard_isSome_get? {m : ShardedMap α} (hm : m.Placed) :
    {k | (m.get? k).isSome}.encard = m.size := by
  have hset : {k | (m.get? k).isSome} = ↑(m.toList.map Prod.fst).toFinset := by
    ext k
    simp only [Set.mem_ofPred_eq, Finset.mem_coe, List.mem_toFinset, List.mem_map, Prod.exists,
      exists_and_right, exists_eq_right, mem_toList hm, Option.isSome_iff_exists]
  rw [hset, Set.encard_coe_eq_coe_finsetCard, List.toFinset_card_of_nodup (nodup_keys_toList hm),
    List.length_map, length_toList]

end ShardedMap

namespace Ancestry

/-- The ancestor at a level is the chain's entry there. -/
theorem ancestorAt?_eq_some {a : Ancestry} {x : Bytes} {ch : List Bytes} (hc : a.chain? x = some ch)
    (l : Nat) (hl : l < ch.length) : a.ancestorAt? x l = some ch[l] := by
  simp [ancestorAt?, hc, hl]

/-- Past the end of the chain there is no ancestor. -/
theorem ancestorAt?_eq_none {a : Ancestry} {x : Bytes} {ch : List Bytes} (hc : a.chain? x = some ch)
    {l : Nat} (hl : ch.length ≤ l) : a.ancestorAt? x l = none := by
  simp [ancestorAt?, hc, hl]

/-- An id without a chain has no ancestor at any level. -/
theorem ancestorAt?_of_chain?_eq_none {a : Ancestry} {x : Bytes} (hc : a.chain? x = none)
    (l : Nat) : a.ancestorAt? x l = none := by
  simp [ancestorAt?, hc]

end Ancestry

namespace Service

namespace AncestryStep

/-- Whether a step writes the chain of `x`: an attach or a detach of `x`, or a reset. -/
def writes (x : Bytes) : AncestryStep → Bool
  | attachRoot id => id == x
  | attach id _ => id == x
  | detach id => id == x
  | reset => true
  | _ => false

/-- The chain of its id that a step fixes, from the chains `a` it runs on: the empty chain for a
root, the parent followed by the parent's chain in `a` for an attach, and none otherwise. -/
def fixedChain (a : Ancestry) : AncestryStep → Option (List Bytes)
  | attachRoot _ => some []
  | attach _ p => some (p :: (a.chain? p).getD [])
  | _ => none

/-- A step that does not write the chain of `x` leaves it as it was. -/
theorem chain?_run_of_writes_eq_false {x : Bytes} {s : AncestryStep} (hs : s.writes x = false)
    (a : Ancestry) : (s.run a).2.chain? x = a.chain? x := by
  cases s <;> simp_all [writes, run]

/-- A step that writes the chain of `x` leaves the chain it fixes. -/
theorem chain?_run_of_writes {x : Bytes} {s : AncestryStep} (hs : s.writes x = true)
    (a : Ancestry) : (s.run a).2.chain? x = s.fixedChain a := by
  cases s <;> simp_all [writes, run, fixedChain]

/-- Steps that do not write the chain of `x` leave it as it was. -/
theorem chain?_runAll_of_forall {x : Bytes} {steps : List AncestryStep}
    (hsteps : ∀ s ∈ steps, s.writes x = false) (a : Ancestry) :
    (runAll run a steps).chain? x = a.chain? x := by
  induction steps generalizing a with
  | nil => rfl
  | cons s steps ih =>
    rw [runAll_cons, ih (fun s' hs' => hsteps s' (List.mem_cons_of_mem s hs')),
      chain?_run_of_writes_eq_false (hsteps s List.mem_cons_self)]

/-- The latest step that writes the chain of `x` decides it, from the chains just before it. -/
theorem chain?_runAll_latest {x : Bytes} {pre post : List AncestryStep} {s : AncestryStep}
    (hs : s.writes x = true) (hpost : ∀ s' ∈ post, s'.writes x = false) (a : Ancestry) :
    (runAll run a (pre ++ s :: post)).chain? x = s.fixedChain (runAll run a pre) := by
  rw [runAll, List.foldl_append, ← runAll, ← runAll, runAll_cons,
    chain?_runAll_of_forall hpost, chain?_run_of_writes hs]

/-- Every run keeps the chains in the shards their hashes pick. -/
theorem placed_runAll (n : Nat) (h : 0 < n) (steps : List AncestryStep) :
    (runAll run (Ancestry.empty n h) steps).chains.Placed := by
  refine runAll_induction (fun a : Ancestry => a.chains.Placed) (ShardedMap.placed_empty n h)
    (fun a s ha => ?_) steps
  cases s with
  | attachRoot id => exact ha.insert _ _
  | attach id p => exact ha.insert _ _
  | detach id => exact ha.erase _
  | reset => exact ShardedMap.placed_clear _
  | chain _ | ancestorAt _ _ | parent _ | depth _ | size => exact ha

/-- A detach answers whether the id had a chain. -/
theorem run_detach_fst (a : Ancestry) (x : Bytes) :
    ((detach x).run a).1 = .result (.bool (a.chain? x).isSome) := by
  simp [run]

end AncestryStep

/-- Ancestor chains are snapshots. After any run of steps from no chains, with any ids, the chain
of `x` is the one that the latest step writing it fixed, from the chains just before that step:
the empty chain for `attachRoot x`, and for `attach x p` the parent `p` followed by the chain
that `p` had then (none if it had none), so `attach x x` gives `x` followed by the old chain of
`x`. A detach of `x` or a reset leaves none, and so does a run in which no step writes it. No
step on another id changes it. The depth is the chain's length, the ancestor at level `l` is its
entry `l` below the length and none from there on, the parent is the ancestor at level zero, a
detach of `x` answers whether `x` has a chain, and the number of chains is the number of ids
that have one. -/
theorem chains_are_snapshots (n : Nat) (h : 0 < n) (steps : List AncestryStep) (x : Bytes) :
    let after := runAll AncestryStep.run (Ancestry.empty n h)
    let a := after steps
    (∀ pre s post, steps = pre ++ s :: post → s.writes x = true →
      (∀ s' ∈ post, s'.writes x = false) → a.chain? x = s.fixedChain (after pre)) ∧
    ((∀ s ∈ steps, s.writes x = false) → a.chain? x = none) ∧
    a.depth? x = (a.chain? x).map List.length ∧
    (∀ ch, a.chain? x = some ch →
      (∀ l (hl : l < ch.length), a.ancestorAt? x l = some ch[l]) ∧
      ∀ l, ch.length ≤ l → a.ancestorAt? x l = none) ∧
    (a.chain? x = none → ∀ l, a.ancestorAt? x l = none) ∧
    a.parent? x = a.ancestorAt? x 0 ∧
    ((AncestryStep.detach x).run a).1 = .result (.bool (a.chain? x).isSome) ∧
    {y | (a.chain? y).isSome}.encard = a.size := by
  intro after a
  refine ⟨fun pre s post hsplit hs hpost => ?_, fun hnone => ?_, rfl,
    fun ch hc => ⟨Ancestry.ancestorAt?_eq_some hc, fun l hl => Ancestry.ancestorAt?_eq_none hc hl⟩,
    Ancestry.ancestorAt?_of_chain?_eq_none, rfl, AncestryStep.run_detach_fst a x,
    ShardedMap.encard_isSome_get? (AncestryStep.placed_runAll n h steps)⟩
  · show (after steps).chain? x = _
    rw [hsplit]
    exact AncestryStep.chain?_runAll_latest hs hpost _
  · show (after steps).chain? x = none
    rw [AncestryStep.chain?_runAll_of_forall hnone]
    exact Ancestry.chain?_empty n h x

/-- A run that attaches `a` as a root and `b` under `a`, then attaches `b` under itself and
detaches `a`: the snapshot law at `b` in two shards. -/
theorem chains_are_snapshots_of_self_attach :
    let steps : List AncestryStep :=
      [.attachRoot ⟨[0x61]⟩, .attach ⟨[0x62]⟩ ⟨[0x61]⟩, .attach ⟨[0x62]⟩ ⟨[0x62]⟩, .detach ⟨[0x61]⟩]
    let x : Bytes := ⟨[0x62]⟩
    let after := runAll AncestryStep.run (Ancestry.empty 2 (by decide))
    let a := after steps
    0 < 2 ∧
    (∀ pre s post, steps = pre ++ s :: post → s.writes x = true →
      (∀ s' ∈ post, s'.writes x = false) → a.chain? x = s.fixedChain (after pre)) ∧
    ((∀ s ∈ steps, s.writes x = false) → a.chain? x = none) ∧
    a.depth? x = (a.chain? x).map List.length ∧
    (∀ ch, a.chain? x = some ch →
      (∀ l (hl : l < ch.length), a.ancestorAt? x l = some ch[l]) ∧
      ∀ l, ch.length ≤ l → a.ancestorAt? x l = none) ∧
    (a.chain? x = none → ∀ l, a.ancestorAt? x l = none) ∧
    a.parent? x = a.ancestorAt? x 0 ∧
    ((AncestryStep.detach x).run a).1 = .result (.bool (a.chain? x).isSome) ∧
    {y | (a.chain? y).isSome}.encard = a.size :=
  ⟨by decide, chains_are_snapshots 2 (by decide) _ _⟩

/-- Attaching `b` under itself puts `b` in front of the chain `b` had, and the later detach of `a`
leaves it as it was. -/
example :
    (runAll AncestryStep.run (Ancestry.empty 2 (by decide))
      [.attachRoot ⟨[0x61]⟩, .attach ⟨[0x62]⟩ ⟨[0x61]⟩, .attach ⟨[0x62]⟩ ⟨[0x62]⟩,
        .detach ⟨[0x61]⟩]).chain? ⟨[0x62]⟩ = some [⟨[0x62]⟩, ⟨[0x61]⟩] := by
  simp [runAll, AncestryStep.run]

end Service

end IndexedTree
