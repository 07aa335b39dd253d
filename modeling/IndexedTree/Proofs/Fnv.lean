import Mathlib
import IndexedTree.ShardedMap

/-!
# FNV-1 over unsigned bytes

`Bytes.fnv64` runs in 64-bit words. Read as a natural number, each step multiplies by the FNV
prime modulo `2 ^ 64` and xors in the byte's unsigned value, a number below `2 ^ 8`
(`toNat_step`). The whole hash is therefore the same fold over natural numbers, started at the
offset basis (`toNat_foldl_step`).

Since the byte is below `2 ^ 8`, the xor reaches the low eight bits of the product only: the upper
56 bits of a step's result are those of the product (`toNat_step_div`), and the low eight are the
product's low byte xor the byte (`toNat_step_mod`). A byte read with its sign extended would have
flipped all the upper bits for every byte from `0x80` up. A key's shard, among any number of
shards and in every sharded map, is its hash modulo the shard count.

The main statement is `fnv64_eq_foldl_unsigned`.
-/

namespace IndexedTree

namespace Fnv

/-- One step of FNV-1 on natural numbers: the product modulo `2 ^ 64`, xor the byte's unsigned
value. -/
def natStep (h : Nat) (b : UInt8) : Nat := h * 1099511628211 % 2 ^ 64 ^^^ b.toNat

@[simp] theorem toNat_prime : prime.toNat = 1099511628211 := rfl

@[simp] theorem toNat_offsetBasis : offsetBasis.toNat = 14695981039346656037 := rfl

/-- A step in words is the step on natural numbers. -/
@[simp] theorem toNat_step (h : UInt64) (b : UInt8) : (step h b).toNat = natStep h.toNat b := by
  simp [step, natStep, UInt64.toNat_xor, UInt64.toNat_mul]

/-- Every run of steps in words is the run of steps on natural numbers. -/
theorem toNat_foldl_step (h : UInt64) (bs : List UInt8) :
    (bs.foldl step h).toNat = bs.foldl natStep h.toNat := by
  induction bs generalizing h with
  | nil => rfl
  | cons b bs ih => rw [List.foldl_cons, List.foldl_cons, ih, toNat_step]

/-- The xor of a byte leaves the upper 56 bits of the product as they are. -/
theorem toNat_step_div (h : UInt64) (b : UInt8) :
    (step h b).toNat / 2 ^ 8 = (h * prime).toNat / 2 ^ 8 := by
  have hb : b.toNat / 2 ^ 8 = 0 := Nat.div_eq_of_lt b.toNat_lt
  rw [toNat_step, natStep, Nat.xor_div_two_pow, hb, Nat.xor_zero, UInt64.toNat_mul, toNat_prime]

/-- The low eight bits of a step are the product's low byte xor the byte. -/
theorem toNat_step_mod (h : UInt64) (b : UInt8) :
    (step h b).toNat % 2 ^ 8 = (h * prime).toNat % 2 ^ 8 ^^^ b.toNat := by
  have hb : b.toNat % 2 ^ 8 = b.toNat := Nat.mod_eq_of_lt b.toNat_lt
  rw [toNat_step, natStep, Nat.xor_mod_two_pow, hb, UInt64.toNat_mul, toNat_prime]

end Fnv

namespace Bytes

/-- Hashing goes on from the hash of a prefix. -/
theorem fnv64_append (s t : Bytes) : (s ++ t).fnv64 = t.data.foldl Fnv.step s.fnv64 := by
  simp only [fnv64, data_append, List.foldl_append]

/-- The hash of a byte string with one more byte is one more step. -/
theorem fnv64_append_byte (s : Bytes) (b : UInt8) : (s ++ ⟨[b]⟩).fnv64 = Fnv.step s.fnv64 b := by
  rw [fnv64_append, List.foldl_cons, List.foldl_nil]

/-- The hash is FNV-1 over unsigned bytes. Read as a natural number it is the fold that starts at
the offset basis and, for each byte, multiplies by the FNV prime modulo `2 ^ 64` and xors in the
byte's value in `[0, 255]`. A further byte changes only the low eight bits of the product: the
upper 56 bits stay, the low eight are xored with the byte. A key's shard among `n` shards, and in
a sharded map of `n ≥ 1` shards, is its hash modulo `n`. -/
theorem fnv64_eq_foldl_unsigned {α : Type} (s : Bytes) :
    s.fnv64.toNat =
        s.data.foldl (fun h b => h * 1099511628211 % 2 ^ 64 ^^^ b.toNat) 14695981039346656037 ∧
      (∀ b : UInt8,
        (s ++ ⟨[b]⟩).fnv64.toNat / 2 ^ 8 = s.fnv64.toNat * 1099511628211 % 2 ^ 64 / 2 ^ 8 ∧
          (s ++ ⟨[b]⟩).fnv64.toNat % 2 ^ 8 =
            s.fnv64.toNat * 1099511628211 % 2 ^ 64 % 2 ^ 8 ^^^ b.toNat) ∧
      (∀ n, s.shardOf n = s.fnv64.toNat % n) ∧
      ∀ m : ShardedMap α, m.shardIndex s = s.fnv64.toNat % m.shardCount := by
  refine ⟨?_, fun b => ?_, fun n => rfl, fun m => rfl⟩
  · rw [fnv64, Fnv.toNat_foldl_step, Fnv.toNat_offsetBasis]
    rfl
  · -- both bit ranges are read off the one step that the last byte adds
    have hprod : (s.fnv64 * Fnv.prime).toNat = s.fnv64.toNat * 1099511628211 % 2 ^ 64 := by
      rw [UInt64.toNat_mul, Fnv.toNat_prime]
    rw [fnv64_append_byte, Fnv.toNat_step_div, Fnv.toNat_step_mod, hprod]
    exact ⟨rfl, rfl⟩

example : (⟨[0x61]⟩ : Bytes).fnv64 = 0xaf63bd4c8601b7be := by decide

example : (⟨[0xff]⟩ : Bytes).fnv64 = 0xaf63bd4c8601b720 := by decide

end Bytes

end IndexedTree
