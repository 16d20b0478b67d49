import Mathlib.Algebra.Group.Nat.Defs

/-
  The order of texts and the order of their bytes.

  Texts are compared by code points, from the left. In UTF-8 a code point is written in base 64: the
  first byte says how many others there are and holds the leading digit, and each of the others
  holds one digit more (`Utf8.digits`). So code points of one length are in the order of their
  digits (`digits_append_lt`), those of different lengths in the order of their first bytes
  (`digits_append_lt_of_lead`), and texts in the order of their bytes (`toUTF8_lt`).
-/

namespace PrefixLisp.Utf8

/-- A number in base 64, with `k` digits behind the leading one, which is marked by `lead`; the
others are marked by 128. -/
def digits (lead : Nat) : (k : Nat) → Nat → List UInt8
  | 0, v => [UInt8.ofNat (v + lead)]
  | k + 1, v => digits lead k (v / 64) ++ [UInt8.ofNat (v % 64 + 128)]

theorem ofNat_lt_ofNat {m n : Nat} (h : m < n) (hn : n < 256) : UInt8.ofNat m < UInt8.ofNat n := by
  rw [UInt8.lt_iff_toNat_lt, UInt8.toNat_ofNat', UInt8.toNat_ofNat',
    Nat.mod_eq_of_lt (Nat.lt_trans h hn), Nat.mod_eq_of_lt hn]
  exact h

theorem digits_eq_cons (lead k v : Nat) :
    ∃ rest, digits lead k v = UInt8.ofNat (v / 64 ^ k + lead) :: rest := by
  induction k generalizing v with
  | zero => exact ⟨[], by rw [digits, Nat.pow_zero, Nat.div_one]⟩
  | succ k ih =>
    obtain ⟨rest, hrest⟩ := ih (v / 64)
    refine ⟨rest ++ [UInt8.ofNat (v % 64 + 128)], ?_⟩
    rw [digits, hrest, Nat.div_div_eq_div_mul, Nat.pow_succ', List.cons_append]

section

variable {lead k v w : Nat}

/-- Numbers of equally many digits are in the order of these. -/
theorem digits_append_lt (h : v < w) (hw : w / 64 ^ k + lead < 256) (xs ys : List UInt8) :
    digits lead k v ++ xs < digits lead k w ++ ys := by
  induction k generalizing v w xs ys with
  | zero =>
    rw [Nat.pow_zero, Nat.div_one] at hw
    exact List.cons_lt_cons_iff.2 (.inl (ofNat_lt_ofNat (by omega) hw))
  | succ k ih =>
    rw [digits, digits, List.append_assoc, List.append_assoc]
    have hle : v / 64 ≤ w / 64 := Nat.div_le_div_right (Nat.le_of_lt h)
    rcases Nat.lt_or_eq_of_le hle with hlt | heq
    · rw [Nat.pow_succ', ← Nat.div_div_eq_div_mul] at hw
      exact ih hlt hw _ _
    · have hlast : v % 64 + 128 < w % 64 + 128 := by omega
      rw [heq]
      refine List.append_left_lt (List.cons_lt_cons_iff.2 (.inl (ofNat_lt_ofNat hlast ?_)))
      omega

/-- The first byte decides if it differs. -/
theorem digits_append_lt_of_lead {lead' k' : Nat} (h : v / 64 ^ k + lead < w / 64 ^ k' + lead')
    (hw : w / 64 ^ k' + lead' < 256) (xs ys : List UInt8) :
    digits lead k v ++ xs < digits lead' k' w ++ ys := by
  obtain ⟨rest, hdigits⟩ := digits_eq_cons lead k v
  obtain ⟨rest', hdigits'⟩ := digits_eq_cons lead' k' w
  rw [hdigits, hdigits']
  exact List.cons_lt_cons_iff.2 (.inl (ofNat_lt_ofNat h hw))

end

/-- The bytes of a code point, by its size. -/
inductive Encodes : Nat → List UInt8 → Prop where
  | one {v : Nat} (hv : v ≤ 0x7f) : Encodes v (digits 0 0 v)
  | two {v : Nat} (h : 0x7f < v) (hv : v ≤ 0x7ff) : Encodes v (digits 0xc0 1 v)
  | three {v : Nat} (h : 0x7ff < v) (hv : v ≤ 0xffff) : Encodes v (digits 0xe0 2 v)
  | four {v : Nat} (h : 0xffff < v) (hv : v < 0x110000) : Encodes v (digits 0xf0 3 v)

theorem encodes_utf8EncodeChar (c : Char) : Encodes c.val.toNat (String.utf8EncodeChar c) := by
  have hmax : c.val.toNat < 0x110000 := by
    rcases c.valid with h | h
    · exact Nat.lt_trans h (by decide)
    · exact h.2
  unfold String.utf8EncodeChar
  generalize c.val.toNat = v at hmax
  dsimp only
  split
  · exact .one ‹_›
  split
  · have hlead : v / 64 % 0x20 = v / 64 := by omega
    rw [hlead]
    exact .two (by omega) ‹_›
  split
  · have hlead : v / 4096 % 0x10 = v / 64 / 64 := by omega
    rw [hlead]
    exact .three (by omega) ‹_›
  · have hlead : v / 262144 % 0x08 = v / 64 / 64 / 64 := by omega
    have hsecond : v / 4096 = v / 64 / 64 := by omega
    rw [hlead, hsecond]
    exact .four (by omega) hmax

/-- Code points are in the order of their bytes, whatever stands behind them. -/
theorem Encodes.append_lt {v w : Nat} {bs cs : List UInt8} (hv : Encodes v bs) (hw : Encodes w cs)
    (h : v < w) (xs ys : List UInt8) : bs ++ xs < cs ++ ys := by
  cases hv with
  | one =>
    cases hw with
    | one => exact digits_append_lt h (by omega) xs ys
    | _ => exact digits_append_lt_of_lead (by omega) (by omega) xs ys
  | two =>
    cases hw with
    | one => omega
    | two => exact digits_append_lt h (by omega) xs ys
    | _ => exact digits_append_lt_of_lead (by omega) (by omega) xs ys
  | three =>
    cases hw with
    | one | two => omega
    | three => exact digits_append_lt h (by omega) xs ys
    | four => exact digits_append_lt_of_lead (by omega) (by omega) xs ys
  | four =>
    cases hw with
    | four => exact digits_append_lt h (by omega) xs ys
    | _ => omega

theorem flatMap_lt {cs ds : List Char} (h : cs < ds) :
    cs.flatMap String.utf8EncodeChar < ds.flatMap String.utf8EncodeChar := by
  induction h with
  | @nil d ds =>
    obtain ⟨b, bs, hd⟩ := List.exists_cons_of_ne_nil (String.utf8EncodeChar_ne_nil (c := d))
    rw [List.flatMap_cons, hd]
    exact List.nil_lt_cons b _
  | cons _ ih =>
    rw [List.flatMap_cons, List.flatMap_cons]
    exact List.append_left_lt ih
  | @rel c cs d ds hlt =>
    rw [List.flatMap_cons, List.flatMap_cons]
    exact (encodes_utf8EncodeChar c).append_lt (encodes_utf8EncodeChar d) hlt _ _

theorem toList_data_toUTF8 (s : String) :
    s.toUTF8.data.toList = s.toList.flatMap String.utf8EncodeChar := by
  rw [String.toUTF8_eq_toByteArray, ← String.utf8Encode_toList, List.utf8Encode,
    List.toList_data_toByteArray]

/-- Texts are in the order of their bytes. -/
theorem toUTF8_lt {s t : String} (h : s < t) : s.toUTF8.data.toList < t.toUTF8.data.toList := by
  rw [toList_data_toUTF8, toList_data_toUTF8]
  exact flatMap_lt h

end PrefixLisp.Utf8
