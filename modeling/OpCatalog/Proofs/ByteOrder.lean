import OpCatalog.Text.Names
import Mathlib.Data.String.Basic

/-!
# The order of names and of their bytes

Names are compared character by character. UTF-8 is made so that comparing the written bytes
comes to the same: the first byte tells longer codes from shorter ones and holds the highest
bits, and each byte after it holds six bits more.
-/
namespace OpCatalog.Text

/-- The bytes of a text as it is written. -/
def bytes (s : String) : List UInt8 := s.toUTF8.data.toList

theorem bytes_eq (s : String) : bytes s = s.toList.flatMap String.utf8EncodeChar := by
  conv => lhs; rw [← String.ofList_toList (s := s)]
  exact List.toList_data_toByteArray

/-! ## The code of a character -/

/-- The bytes that follow a first byte, for the lowest bits of a code point, six in each. -/
def continuation : Nat → Nat → List UInt8
  | 0, _ => []
  | k + 1, v => continuation k (v / 64) ++ [UInt8.ofNat (v % 64 + 128)]

/-- How many bytes follow the first one. -/
def following (v : Nat) : Nat :=
  if v ≤ 127 then 0 else if v ≤ 2047 then 1 else if v ≤ 65535 then 2 else 3

/-- What the first byte says of how many follow. -/
def marker : Nat → Nat
  | 0 => 0
  | 1 => 192
  | 2 => 224
  | _ => 240

/-- The first byte: its marker and the bits that the others leave. -/
def lead (v : Nat) : Nat := v / 64 ^ following v + marker (following v)

theorem ofNat_lt_ofNat {m n : Nat} (h : m < n) (hn : n < 256) : UInt8.ofNat m < UInt8.ofNat n :=
  (UInt8.ofNat_lt_iff_lt (Nat.lt_trans h hn) hn).2 h

theorem toNat_val_lt (c : Char) : c.val.toNat < 0x110000 := by
  rcases c.valid with h | ⟨-, h⟩
  · omega
  · exact h

/-- How many bytes follow and what the first one is, by the size of the code point. -/
theorem lead_cases (v : Nat) :
    (v ≤ 127 ∧ following v = 0 ∧ lead v = v) ∨
    (127 < v ∧ v ≤ 2047 ∧ following v = 1 ∧ lead v = v / 64 + 192) ∨
    (2047 < v ∧ v ≤ 65535 ∧ following v = 2 ∧ lead v = v / 4096 + 224) ∨
    (65535 < v ∧ following v = 3 ∧ lead v = v / 262144 + 240) := by
  simp only [lead, following]
  split
  · simp [marker]; omega
  · split
    · simp [marker]; omega
    · split
      · simp [marker]; omega
      · simp [marker]; omega

theorem lead_lt {v : Nat} (h : v < 0x110000) : lead v < 256 := by
  rcases lead_cases v with hv | hv | hv | hv <;> omega

/-- The first byte grows with the code point unless as many bytes follow. -/
theorem lead_lt_or {v w : Nat} (h : v < w) (hw : w < 0x110000) :
    lead v < lead w ∨ lead v = lead w ∧ following v = following w := by
  rcases lead_cases v with hv | hv | hv | hv <;>
    rcases lead_cases w with hw' | hw' | hw' | hw' <;> omega

theorem utf8EncodeChar_eq (c : Char) :
    String.utf8EncodeChar c =
      UInt8.ofNat (lead c.val.toNat) :: continuation (following c.val.toNat) c.val.toNat := by
  have hlt := toNat_val_lt c
  simp only [String.utf8EncodeChar, lead, following]
  generalize c.val.toNat = v at hlt
  split
  · simp [marker, continuation]
  · split
    · rw [Nat.mod_eq_of_lt (a := v / 64) (by omega)]
      simp [marker, continuation]
    · split
      · rw [Nat.mod_eq_of_lt (a := v / 4096) (by omega)]
        simp [marker, continuation]
      · rw [Nat.mod_eq_of_lt (a := v / 262144) (by omega)]
        simp [marker, continuation, Nat.div_div_eq_div_mul]

/-- Among code points that differ only in their lowest bits, the continuation decides. -/
theorem continuation_lt {k v w : Nat} (hlt : v < w) (hhigh : v / 64 ^ k = w / 64 ^ k)
    (as bs : List UInt8) : continuation k v ++ as < continuation k w ++ bs := by
  induction k generalizing v w as bs with
  | zero =>
    simp only [Nat.pow_zero, Nat.div_one] at hhigh
    omega
  | succ k ih =>
    simp only [continuation, List.append_assoc]
    rcases Nat.lt_or_ge (v / 64) (w / 64) with hdiv | hdiv
    · apply ih hdiv
      rwa [Nat.div_div_eq_div_mul, Nat.div_div_eq_div_mul, ← Nat.pow_succ']
    · -- All bits but the last six agree.
      have heq : v / 64 = w / 64 := by omega
      rw [heq]
      apply List.append_left_lt
      exact List.cons_lt_cons_iff.2 (Or.inl (ofNat_lt_ofNat (by omega) (by omega)))

/-- Of two characters the smaller has the smaller code, whatever comes after them. -/
theorem utf8EncodeChar_lt {c d : Char} (h : c < d) (as bs : List UInt8) :
    String.utf8EncodeChar c ++ as < String.utf8EncodeChar d ++ bs := by
  have hlt : c.val.toNat < d.val.toNat := h
  have hd := toNat_val_lt d
  rw [utf8EncodeChar_eq, utf8EncodeChar_eq, List.cons_append, List.cons_append,
    List.cons_lt_cons_iff]
  rcases lead_lt_or hlt hd with hlead | ⟨hlead, hfollowing⟩
  · exact Or.inl (ofNat_lt_ofNat hlead (lead_lt hd))
  · have hhigh := hlead
    simp only [lead, hfollowing, Nat.add_right_cancel_iff] at hhigh
    rw [hfollowing]
    exact Or.inr ⟨congrArg UInt8.ofNat hlead, continuation_lt hlt hhigh as bs⟩

/-! ## The code of a text -/

theorem flatMap_lt {cs ds : List Char} (h : cs < ds) :
    cs.flatMap String.utf8EncodeChar < ds.flatMap String.utf8EncodeChar := by
  induction h with
  | nil =>
    rw [List.flatMap_cons, utf8EncodeChar_eq]
    exact List.nil_lt_cons _ _
  | rel hcd => exact utf8EncodeChar_lt hcd _ _
  | cons _ ih => exact List.append_left_lt ih

/-- The order of texts is that of their bytes. -/
theorem bytes_lt {s t : String} (h : s < t) : bytes s < bytes t := by
  rw [bytes_eq, bytes_eq]
  exact flatMap_lt (String.lt_iff_toList_lt.1 h)

/-- Names in ascending order are so in the order of their bytes. -/
theorem pairwise_bytes {names : List String} (h : names.Pairwise (· < ·)) :
    names.Pairwise fun a b => bytes a < bytes b := h.imp bytes_lt

end OpCatalog.Text
