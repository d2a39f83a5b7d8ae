import DelegatedAuthority.Cbor.Map
import DelegatedAuthority.Cid
import Mathlib.Data.List.Forall2
/-!
Spellings: bytes that a reader takes for a value, no more and no less, whatever is behind them.

Spellings one behind the other spell what is read one after the other. Numbers and identifiers are
spelt by the bytes they are written to.
-/
namespace DelegatedAuthority

open Cbor

variable {α β : Type}

/-- A reader takes exactly these bytes off the front, and makes `a` of them. -/
def Spells (read : Read α) (spelling : Bytes) (a : α) : Prop :=
  ∀ rest, read (spelling ++ rest) = some (a, rest)

namespace Spells

variable {read : Read α} {part part' : Bytes}

theorem append {read' : Read β} {a : α} {b : β} (first : Spells read part a)
    (second : Spells read' part' b) : Spells (readPair read read') (part ++ part') (a, b) := by
  intro rest
  simp [readPair, List.append_assoc, first _, second rest]

theorem discard {a : α} (spelt : Spells read part a) : Spells (Cbor.discard read) part () := by
  intro rest
  simp [Cbor.discard, spelt rest]

/-- Spellings one behind the other spell a list. -/
theorem many {parts : List Bytes} {list : List α} (each : List.Forall₂ (Spells read) parts list) :
    Spells (readMany read list.length) parts.flatten list := by
  induction each with
  | nil => exact fun rest => rfl
  | cons first _ ih =>
    intro rest
    simp [readMany, List.append_assoc, first _, ih rest]

end Spells

namespace Varint

theorem spells_single (limit : Nat) {n : Nat} (h : n < 128) :
    Spells (readNat (limit + 1)) [UInt8.ofNat n] n := by
  intro rest
  have small : (UInt8.ofNat n).toNat = n := by
    rw [UInt8.toNat_ofNat']
    omega
  rw [List.singleton_append, readNat, small, if_pos h]

theorem spells_writeNat (limit : Nat) {n : Nat} (h : n < Nat.pow 128 (limit + 1)) :
    Spells (readNat (limit + 1)) (writeNat n) n := by
  induction limit generalizing n with
  | zero =>
    have small : n < 128 := h
    rw [writeNat, if_pos small]
    exact spells_single 0 small
  | succ limit ih =>
    rw [writeNat]
    split
    · exact spells_single (limit + 1) (by omega)
    · intro rest
      have group : (UInt8.ofNat (n % 128 + 128)).toNat = n % 128 + 128 := by
        rw [UInt8.toNat_ofNat']
        omega
      have high : n / 128 < Nat.pow 128 (limit + 1) := by
        rw [Nat.div_lt_iff_lt_mul (by omega)]
        exact h
      rw [List.cons_append, readNat, group, if_neg (by omega), ih high rest]
      simp only [Option.bind_eq_bind, Option.bind_some]
      rw [if_neg (by omega)]
      simp only [Option.some.injEq, Prod.mk.injEq, and_true]
      omega

theorem length_writeNat_le (limit : Nat) {n : Nat} (h : n < Nat.pow 128 (limit + 1)) :
    (writeNat n).length ≤ limit + 1 := by
  induction limit generalizing n with
  | zero =>
    have small : n < 128 := h
    rw [writeNat, if_pos small]
    exact Nat.le_refl 1
  | succ limit ih =>
    rw [writeNat]
    split
    · exact Nat.le_add_left 1 (limit + 1)
    · have high : n / 128 < Nat.pow 128 (limit + 1) := by
        rw [Nat.div_lt_iff_lt_mul (by omega)]
        exact h
      exact Nat.succ_le_succ (ih high)

/-- Ten groups of seven bits hold every word. -/
theorem toNat_lt_pow (n : UInt64) : n.toNat < Nat.pow 128 (9 + 1) :=
  Nat.lt_trans n.toNat_lt (by decide)

theorem length_write_le (n : UInt64) : (write n).length ≤ 10 :=
  length_writeNat_le 9 (toNat_lt_pow n)

theorem spells_write (n : UInt64) : Spells read (write n) n := by
  intro rest
  rw [read, write, spells_writeNat 9 (toNat_lt_pow n) rest]
  simp

end Varint

namespace Cid

theorem spells_digest (digest : Bytes) (size : digest.length = 32) :
    Spells readDigest digest (.v0 digest size) := by
  intro rest
  have taken := Bytes.take?_append digest rest
  rw [size] at taken
  simp [readDigest, taken, size]

theorem spells_multihash (hash : Multihash) : Spells readMultihash (Varint.write hash.code ++
    Varint.write (UInt64.ofNat hash.digest.length) ++ hash.digest) hash := by
  intro rest
  have size : (UInt64.ofNat hash.digest.length).toNat = hash.digest.length := by
    have := hash.size_le
    rw [UInt64.toNat_ofNat']
    omega
  simp [readMultihash, List.append_assoc, Varint.spells_write _ _, size, Bytes.take?_append,
    hash.size_le]

theorem spells_toBytes (cid : Cid) : Spells read cid.toBytes cid := by
  intro rest
  cases cid with
  | v0 digest size =>
    -- the two bytes in front are varints, though not written as such
    have code : Varint.write sha256 = [0x12] := by decide +kernel
    have width : Varint.write 32 = [0x20] := by decide +kernel
    have version := Varint.spells_write sha256 (0x20 :: (digest ++ rest))
    have codec := Varint.spells_write 32 (digest ++ rest)
    rw [code] at version
    rw [width] at codec
    simp only [List.singleton_append] at version codec
    simp [read, toBytes, version, codec, spells_digest digest size rest]
  | v1 codec hash =>
    have other : (1 : UInt64) ≠ sha256 := by decide
    have spelt := spells_multihash hash rest
    simp only [List.append_assoc] at spelt
    simp [read, toBytes, List.append_assoc, Varint.spells_write _ _, other, spelt]

theorem length_toBytes_le (cid : Cid) : cid.toBytes.length ≤ 104 := by
  cases cid with
  | v0 digest size =>
    rw [toBytes, List.length_cons, List.length_cons, size]
    decide
  | v1 codec hash =>
    have version := Varint.length_write_le 1
    have kind := Varint.length_write_le codec
    have code := Varint.length_write_le hash.code
    have size := Varint.length_write_le (UInt64.ofNat hash.digest.length)
    have digest := hash.size_le
    simp only [toBytes, List.length_append]
    omega

theorem ofBytes?_toBytes (cid : Cid) : ofBytes? cid.toBytes = some cid := by
  have h := spells_toBytes cid []
  rw [List.append_nil] at h
  simp [ofBytes?, h]

end Cid

end DelegatedAuthority
