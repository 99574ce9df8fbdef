import Mathlib.Data.Nat.Basic
import Mathlib.Tactic.NormNum
import Mathlib.Tactic.Ring

/-!
# Internet addresses and their ranges

A **range** of addresses is written as an address and the number of the bits that all its members
share with it. Two ranges are nested or have nothing in common (`Cidr.mem_of_mem_of_mem`), so that
one look at an address of the narrower range tells the two cases apart (`Cidr.not_mem_of_mem`).

An address is that of one of the two families, and the address of the wider one may carry a zone. A
range has **no address with a zone** in it, whatever the bits of the address are
(`Prefix.Contains`); `Prefix.covers` is the range by the bits alone.
-/

namespace Hibari

/-- A range of addresses of `w` bits: those that have their first `len` bits in common. -/
structure Cidr (w : ℕ) where
  bits : BitVec w
  len : ℕ
  deriving DecidableEq

namespace Cidr

variable {w : ℕ} {c d : Cidr w} {b : BitVec w}

/-- The address is in the range. -/
def Mem (c : Cidr w) (b : BitVec w) : Prop :=
  b.toNat / 2 ^ (w - c.len) = c.bits.toNat / 2 ^ (w - c.len)

instance (c : Cidr w) (b : BitVec w) : Decidable (c.Mem b) := by
  unfold Mem
  infer_instance

/-- **Two ranges are nested or disjoint.** What both have in them is in the wider one with all of
the narrower one. -/
theorem mem_of_mem_of_mem (hlen : c.len ≤ d.len) (hc : c.Mem b) (hd : d.Mem b) : c.Mem d.bits := by
  have hpow : 2 ^ (w - c.len) = 2 ^ (w - d.len) * 2 ^ ((w - c.len) - (w - d.len)) := by
    rw [← pow_add]
    congr 1
    omega
  show d.bits.toNat / 2 ^ (w - c.len) = c.bits.toNat / 2 ^ (w - c.len)
  calc d.bits.toNat / 2 ^ (w - c.len)
      = d.bits.toNat / 2 ^ (w - d.len) / 2 ^ ((w - c.len) - (w - d.len)) := by
        rw [hpow, Nat.div_div_eq_div_mul]
    _ = b.toNat / 2 ^ (w - d.len) / 2 ^ ((w - c.len) - (w - d.len)) := by rw [show _ = _ from hd]
    _ = b.toNat / 2 ^ (w - c.len) := by rw [hpow, Nat.div_div_eq_div_mul]
    _ = c.bits.toNat / 2 ^ (w - c.len) := hc

theorem not_mem_of_mem (hcd : ¬ c.Mem d.bits) (hdc : ¬ d.Mem c.bits)
    (hd : d.Mem b) : ¬ c.Mem b := fun hc =>
  (le_total c.len d.len).elim (fun hlen => hcd (mem_of_mem_of_mem hlen hc hd))
    fun hlen => hdc (mem_of_mem_of_mem hlen hd hc)

end Cidr

/-- An address: none at all, one of four bytes, or one of sixteen bytes with its zone. -/
inductive Addr
  | invalid
  | v4 (bits : BitVec 32)
  | v6 (bits : BitVec 128) (zone : List Char)
  deriving DecidableEq

/-- A range of the addresses of one family. -/
inductive Prefix
  | v4 (cidr : Cidr 32)
  | v6 (cidr : Cidr 128)
  deriving DecidableEq

namespace Prefix

/-- The address is in the range but for its zone. -/
def covers : Prefix → Addr → Bool
  | v4 c, .v4 b => decide (c.Mem b)
  | v6 c, .v6 b _ => decide (c.Mem b)
  | _, _ => false

/-- The address is in the range. With a zone it is in none. -/
def Contains : Prefix → Addr → Bool
  | v6 c, .v6 b zone => zone.isEmpty && decide (c.Mem b)
  | p, a => p.covers a

@[simp] theorem contains_v4 (p : Prefix) (b : BitVec 32) :
    p.Contains (.v4 b) = p.covers (.v4 b) := by
  cases p <;> rfl

@[simp] theorem contains_plain (p : Prefix) (b : BitVec 128) :
    p.Contains (.v6 b []) = p.covers (.v6 b []) := by
  cases p <;> rfl

/-- **An address with a zone is in no range.** -/
theorem contains_zone (p : Prefix) (b : BitVec 128) {zone : List Char} (hzone : zone ≠ []) :
    p.Contains (.v6 b zone) = false := by
  cases p with
  | v4 => rfl
  | v6 =>
    show (zone.isEmpty && _) = false
    rw [List.isEmpty_eq_false_iff.mpr hzone, Bool.false_and]

end Prefix

namespace Addr

variable {small : List (Cidr 32)} {wide : List (Cidr 128)} {b : BitVec 128}

/-- The addresses of sixteen bytes that stand for one of four. -/
def mapped : Cidr 128 := ⟨0xffff00000000, 96⟩

/-- `Is6`. -/
def Is6 : Addr → Bool
  | v6 _ _ => true
  | _ => false

/-- The zone of an address. -/
def zone : Addr → List Char
  | v6 _ zone => zone
  | _ => []

/-- The last four bytes of sixteen. -/
def lowV4 (b : BitVec 128) : BitVec 32 := b.setWidth 32

/-- `Unmap`: the address of four bytes for which one of sixteen stands. -/
def Unmap : Addr → Addr
  | v6 b zone => if mapped.Mem b then v4 (lowV4 b) else v6 b zone
  | a => a

/-- The address itself is in one of the ranges of its family, those of sixteen bytes that stand for
four being taken as the four. -/
def In (small : List (Cidr 32)) (wide : List (Cidr 128)) (a : Addr) : Bool :=
  match a.Unmap with
  | invalid => false
  | v4 b => small.any fun c => decide (c.Mem b)
  | v6 b _ => wide.any fun c => decide (c.Mem b)

/-- The loopback addresses of sixteen bytes. -/
def loopbackV6 : List (Cidr 128) := [⟨1, 128⟩]

/-- The multicast addresses of sixteen bytes. -/
def multicastV6 : List (Cidr 128) := [⟨0xff000000000000000000000000000000, 8⟩]

/-- The link-local addresses of sixteen bytes. -/
def linkLocalV6 : List (Cidr 128) := [⟨0xfe800000000000000000000000000000, 10⟩]

/-- The private addresses of sixteen bytes. -/
def privateV6 : List (Cidr 128) := [⟨0xfc000000000000000000000000000000, 7⟩]

/-- `IsLoopback`. -/
def IsLoopback : Addr → Bool := In [⟨0x7f000000, 8⟩] loopbackV6

/-- `IsMulticast`. -/
def IsMulticast : Addr → Bool := In [⟨0xe0000000, 4⟩] multicastV6

/-- `IsLinkLocalUnicast`. -/
def IsLinkLocalUnicast : Addr → Bool := In [⟨0xa9fe0000, 16⟩] linkLocalV6

/-- `IsPrivate`. -/
def IsPrivate : Addr → Bool :=
  In [⟨0x0a000000, 8⟩, ⟨0xac100000, 12⟩, ⟨0xc0a80000, 16⟩] privateV6

/-- `IsGlobalUnicast`. The addresses with nothing but zeros and, of four bytes, nothing but ones are
compared as they are, with their zones. -/
def IsGlobalUnicast (a : Addr) : Bool :=
  a ≠ invalid ∧ a ≠ v4 0 ∧ a ≠ v4 0xffffffff ∧ a ≠ v6 0 [] ∧
    !a.IsLoopback ∧ !a.IsMulticast ∧ !a.IsLinkLocalUnicast

/-- An address that is in one of the ranges that the four predicates tell. -/
def IsSpecial (a : Addr) : Bool :=
  a.IsLoopback || a.IsMulticast || a.IsLinkLocalUnicast || a.IsPrivate

theorem global_iff (a : Addr) : a.IsGlobalUnicast = true ∧ a.IsPrivate = false ↔
      a ≠ invalid ∧ a ≠ v4 0 ∧ a ≠ v4 0xffffffff ∧ a ≠ v6 0 [] ∧ a.IsSpecial = false := by
  simp only [IsGlobalUnicast, IsSpecial, decide_eq_true_eq, Bool.or_eq_false_iff,
    Bool.not_eq_true', and_assoc]

variable (hmapped : ¬ mapped.Mem b)
include hmapped

theorem in_v6 (zone : List Char) :
    In small wide (v6 b zone) = wide.any fun c => decide (c.Mem b) := by
  simp only [In, Unmap, if_neg hmapped]

theorem isSpecial_v6 (zone : List Char) : (v6 b zone).IsSpecial = true ↔
      (v6 b zone).IsLoopback = true ∨ ∃ c ∈ multicastV6 ++ linkLocalV6 ++ privateV6, c.Mem b := by
  simp [IsSpecial, IsMulticast, IsLinkLocalUnicast, IsPrivate, in_v6 hmapped, multicastV6,
    linkLocalV6, privateV6, or_assoc]

theorem isLoopback_v6 (zone : List Char) :
    (v6 b zone).IsLoopback = true ↔ (⟨1, 128⟩ : Cidr 128).Mem b := by
  simp [IsLoopback, in_v6 hmapped, loopbackV6]

omit hmapped

@[simp] theorem unmap_v4 (b : BitVec 32) : (v4 b).Unmap = v4 b := rfl

theorem unmap_mapped (hmapped : mapped.Mem b) (zone : List Char) :
    (v6 b zone).Unmap = v4 (lowV4 b) := if_pos hmapped

theorem unmap_v6 (hmapped : ¬ mapped.Mem b) (zone : List Char) :
    (v6 b zone).Unmap = v6 b zone := if_neg hmapped

theorem in_mapped (hmapped : mapped.Mem b) (zone : List Char) :
    In small wide (v6 b zone) = In small wide (v4 (lowV4 b)) := by
  simp only [In, unmap_mapped hmapped, unmap_v4]

theorem isSpecial_mapped (hmapped : mapped.Mem b) (zone : List Char) :
    (v6 b zone).IsSpecial = (v4 (lowV4 b)).IsSpecial := by
  simp only [IsSpecial, IsLoopback, IsMulticast, IsLinkLocalUnicast, IsPrivate, in_mapped hmapped]

end Addr

end Hibari
