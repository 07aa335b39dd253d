/-!
# Pools of spare objects

A pool keeps released objects for reuse: a first-in first-out list of idle objects, at most
`retain` of them. Taking an object takes the one that has waited longest; giving one back puts
it at the end when fewer than `retain` wait, and drops it otherwise.
-/

namespace IndexedTree

/-- A pool of idle objects waiting for reuse. -/
structure Pool (α : Type) where
  /-- The most idle objects the pool keeps. -/
  retain : Nat
  /-- The idle objects, the longest waiting first. -/
  idle : List α
deriving Repr

namespace Pool

variable {α : Type}

/-- The number of idle objects a pool keeps unless told otherwise. -/
def defaultRetain : Nat := 4096

/-- A pool with no idle object. -/
def empty (retain : Nat) : Pool α := ⟨retain, []⟩

/-- The number of idle objects. -/
def idleCount (p : Pool α) : Nat := p.idle.length

/-- The idle object that has waited longest, and the pool without it. -/
def take? (p : Pool α) : Option (α × Pool α) :=
  match p.idle with
  | [] => none
  | a :: rest => some (a, { p with idle := rest })

/-- Gives an object back: it waits at the end when fewer than `retain` wait, else it is dropped. -/
def give (p : Pool α) (a : α) : Pool α :=
  if p.idle.length < p.retain then { p with idle := p.idle ++ [a] } else p

/-- Drops every idle object. -/
def shrink (p : Pool α) : Pool α := { p with idle := [] }

@[simp] theorem idle_empty (retain : Nat) : (empty retain : Pool α).idle = [] := rfl

@[simp] theorem idle_shrink (p : Pool α) : p.shrink.idle = [] := rfl

theorem idle_give (p : Pool α) (a : α) :
    (p.give a).idle = if p.idle.length < p.retain then p.idle ++ [a] else p.idle := by
  unfold give
  split <;> rfl

theorem take?_eq_some_iff (p : Pool α) (a : α) (q : Pool α) :
    p.take? = some (a, q) ↔ p.idle = a :: q.idle ∧ q.retain = p.retain := by
  unfold take?
  cases p with
  | mk retain idle =>
    cases idle with
    | nil => simp
    | cons b rest =>
      cases q
      simp only [Option.some.injEq, Prod.mk.injEq, Pool.mk.injEq, List.cons.injEq]
      constructor
      · rintro ⟨rfl, rfl, rfl⟩
        exact ⟨⟨rfl, rfl⟩, rfl⟩
      · rintro ⟨⟨rfl, rfl⟩, rfl⟩
        exact ⟨rfl, rfl, rfl⟩

end Pool

end IndexedTree
