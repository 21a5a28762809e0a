import Lockstep.Text.Hex
import Lockstep.Trace.Hash
import Mathlib.Data.List.Forall2
import Mathlib.Data.Nat.Bitwise

/-! Changes that a trace hash cannot miss: one byte, the last of the values that are folded, or
one bit of a number in hexadecimal. -/
namespace Lockstep

/-- Two lists are of one length and differ in exactly one place. -/
def DifferOnce {α : Type} [DecidableEq α] (xs ys : List α) : Prop :=
  xs.length = ys.length ∧ (xs.zip ys).countP (fun p => p.1 ≠ p.2) = 1

def OneByteApart (s t : String) : Prop := DifferOnce s.toUTF8.data.toList t.toUTF8.data.toList

section
variable {α : Type} [DecidableEq α] {xs ys : List α}

instance (xs ys : List α) : Decidable (DifferOnce xs ys) := inferInstanceAs (Decidable (_ ∧ _))

instance (s t : String) : Decidable (OneByteApart s t) :=
  inferInstanceAs (Decidable (DifferOnce _ _))

theorem eq_of_nowhere_different (hlen : xs.length = ys.length)
    (hnone : (xs.zip ys).countP (fun p => p.1 ≠ p.2) = 0) : xs = ys := by
  rw [← List.forall₂_eq_eq_eq, List.forall₂_iff_zip]
  refine ⟨hlen, fun hmem => ?_⟩
  simpa using List.countP_eq_zero.1 hnone _ hmem

theorem DifferOnce.split (h : DifferOnce xs ys) :
    ∃ front x y back, x ≠ y ∧ xs = front ++ x :: back ∧ ys = front ++ y :: back := by
  obtain ⟨hlen, hone⟩ := h
  induction xs generalizing ys with
  | nil => simp at hone
  | cons x xs ih =>
    cases ys with
    | nil => simp at hlen
    | cons y ys =>
      have hrest : xs.length = ys.length := by simpa using hlen
      rw [List.zip_cons_cons, List.countP_cons] at hone
      -- the place is in the rest, or it is the head, and then nothing in the rest differs
      by_cases hxy : x = y
      · subst y
        obtain ⟨front, a, b, back, hne, rfl, rfl⟩ := ih hrest (by simpa using hone)
        exact ⟨x :: front, a, b, back, hne, rfl, rfl⟩
      · have hsame := eq_of_nowhere_different hrest (by simpa [hxy] using hone)
        subst ys
        exact ⟨[], x, y, xs, hxy, rfl, rfl⟩

end

namespace TraceHash

variable {xs ys : List UInt8} {cs ds : List Char}

theorem toInt32_injective : Function.Injective UInt32.toInt32 := by
  intro a b h
  simpa using congrArg Int32.toUInt32 h

/-- The hash multiplies by an odd number, which can be undone. -/
theorem mul_prime_injective : Function.Injective fun h : UInt32 => h * 0x01000193 := by
  intro a b h
  have hinv : (0x01000193 : UInt32) * 0x359c449b = 1 := by decide
  have hmul := congrArg (· * 0x359c449b) h
  simpa only [UInt32.mul_assoc, hinv, UInt32.mul_one] using hmul

theorem mixByte_injective_left (b : UInt8) : Function.Injective (mixByte · b) := by
  intro g h he
  exact (UInt32.xor_left_inj _).1 (mul_prime_injective he)

theorem mixByte_injective_right (h : UInt32) : Function.Injective (mixByte h) := by
  intro a b he
  exact UInt8.toUInt32_inj.1 ((UInt32.xor_right_inj _).1 (mul_prime_injective he))

theorem foldl_mixByte_injective (bs : List UInt8) :
    Function.Injective fun h => bs.foldl mixByte h := by
  induction bs with
  | nil => exact Function.injective_id
  | cons b bs ih =>
    intro g h he
    exact mixByte_injective_left b (ih he)

theorem ofBytes_append_inj (zs : List UInt8) :
    ofBytes (xs ++ zs) = ofBytes (ys ++ zs) ↔ ofBytes xs = ofBytes ys := by
  rw [ofBytes, ofBytes, ofBytes, ofBytes, toInt32_injective.eq_iff, toInt32_injective.eq_iff,
    List.foldl_append, List.foldl_append]
  exact (foldl_mixByte_injective zs).eq_iff

theorem ofBytes_concat_inj (xs : List UInt8) {a b : UInt8} :
    ofBytes (xs ++ [a]) = ofBytes (xs ++ [b]) ↔ a = b := by
  rw [ofBytes, ofBytes, toInt32_injective.eq_iff, List.foldl_append, List.foldl_append]
  exact (mixByte_injective_right _).eq_iff

theorem ofBytes_ne_of_differOnce (h : DifferOnce xs ys) : ofBytes xs ≠ ofBytes ys := by
  obtain ⟨front, x, y, back, hne, rfl, rfl⟩ := h.split
  intro he
  rw [List.append_cons front x, List.append_cons front y, ofBytes_append_inj,
    ofBytes_concat_inj] at he
  exact hne he

theorem ofString_ne_of_oneByteApart {s t : String} (h : OneByteApart s t) :
    ofString s ≠ ofString t :=
  ofBytes_ne_of_differOnce h

theorem combine_injective (seed : TraceHash) : Function.Injective (combine seed) := by
  intro a b h
  have hsum := (Int32.xor_right_inj _).1 h
  exact (Int32.add_left_inj _).1 ((Int32.add_left_inj _).1 ((Int32.add_left_inj _).1 hsum))

/-- Every hash comes from a seed by some value: the steps of the fold can be undone. -/
theorem combine_surjective (seed : TraceHash) : Function.Surjective (combine seed) := by
  intro h
  refine ⟨(seed ^^^ h) - (seed >>> 2) - (seed <<< 6) - (0x9e3779b9 : UInt32).toInt32, ?_⟩
  rw [combine, Int32.sub_add_cancel, Int32.sub_add_cancel, Int32.sub_add_cancel,
    ← Int32.xor_assoc, Int32.xor_self, Int32.zero_xor]

theorem combineAll_concat_inj (seed : TraceHash) (values : List TraceHash) {x y : TraceHash} :
    combineAll seed (values ++ [x]) = combineAll seed (values ++ [y]) ↔ x = y := by
  rw [combineAll_append, combineAll_append]
  exact (combine_injective _).eq_iff

theorem ofString_ofList (cs : List Char) :
    ofString (String.ofList cs) = ofBytes (cs.flatMap String.utf8EncodeChar) := by
  rw [ofString, String.toUTF8, String.toByteArray_ofList, List.utf8Encode,
    List.toList_data_toByteArray]

theorem ofString_append_inj (es : List Char) :
    ofString (String.ofList (cs ++ es)) = ofString (String.ofList (ds ++ es)) ↔
      ofString (String.ofList cs) = ofString (String.ofList ds) := by
  simp only [ofString_ofList, List.flatMap_append]
  exact ofBytes_append_inj _

end TraceHash

namespace Hex

open TraceHash (ofString)

variable {n k : Nat}

/-- The last digit, and what stands before it. -/
theorem digits_eq (n : Nat) :
    digits n = (if n < 16 then [] else digits (n / 16)) ++ [(n % 16).digitChar] := by
  rw [digits, Nat.toDigits_eq_if (by decide)]
  split
  next h => rw [Nat.mod_eq_of_lt h, List.nil_append]
  next => rfl

theorem digits_of_le (h : 16 ≤ n) : digits n = digits (n / 16) ++ [(n % 16).digitChar] := by
  rw [digits_eq, if_neg (by omega)]

/-- Each digit is a byte of its own. -/
theorem utf8EncodeChar_digitChar (h : n < 16) :
    String.utf8EncodeChar n.digitChar = [n.digitChar.toNat.toUInt8] := by
  have hall : ∀ d : Fin 16,
      String.utf8EncodeChar d.val.digitChar = [d.val.digitChar.toNat.toUInt8] := by
    decide
  exact hall ⟨n, h⟩

theorem digitChar_byte_inj (hn : n < 16) (hk : k < 16)
    (h : n.digitChar.toNat.toUInt8 = k.digitChar.toNat.toUInt8) : n = k := by
  have hall : ∀ d e : Fin 16,
      d.val.digitChar.toNat.toUInt8 = e.val.digitChar.toNat.toUInt8 → d = e := by
    decide
  exact congrArg Fin.val (hall ⟨n, hn⟩ ⟨k, hk⟩ h)

theorem hash_digits_ne (hfront : n / 16 = k / 16) (hlast : n % 16 ≠ k % 16) :
    ofString (String.ofList (digits n)) ≠ ofString (String.ofList (digits k)) := by
  have hsame : n < 16 ↔ k < 16 := by omega
  intro he
  rw [digits_eq n, digits_eq k, hfront] at he
  simp only [hsame, TraceHash.ofString_ofList, List.flatMap_append, List.flatMap_cons,
    List.flatMap_nil, List.append_nil, utf8EncodeChar_digitChar (Nat.mod_lt n (by decide : 16 > 0)),
    utf8EncodeChar_digitChar (Nat.mod_lt k (by decide : 16 > 0))] at he
  have hbyte := (TraceHash.ofBytes_concat_inj _).1 he
  exact hlast (digitChar_byte_inj (Nat.mod_lt n (by decide)) (Nat.mod_lt k (by decide)) hbyte)

/-- From two hundred and fifty-six on, the last two digits stand behind those of the rest. -/
theorem digits_low (h : 256 ≤ n) :
    digits n = digits (n / 256) ++ [(n / 16 % 16).digitChar, (n % 16).digitChar] := by
  rw [digits_of_le (by omega : 16 ≤ n), digits_of_le (by omega : 16 ≤ n / 16),
    Nat.div_div_eq_div_mul, List.append_assoc]
  rfl

/-- A number below 256 and the same with bit 8 set: the longer text begins with
one or two digits that the hash does not miss. -/
theorem hash_text_ne_of_lt (h : n < 256) : ofString (text n) ≠ ofString (text (n + 256)) := by
  have hone : (n + 256) / 256 = 1 := by omega
  have hlow : (n + 256) / 16 % 16 = n / 16 ∧ (n + 256) % 16 = n % 16 := by omega
  rw [text, text, digits_low (by omega : 256 ≤ n + 256), hone, hlow.1, hlow.2]
  by_cases hn : n < 16
  · have hzero : n / 16 = 0 := by omega
    have hsplit : digits 1 ++ [Nat.digitChar 0, (n % 16).digitChar] =
        ['1', '0'] ++ [(n % 16).digitChar] := rfl
    rw [digits_eq n, if_pos hn, hzero, hsplit]
    rw [ne_eq, TraceHash.ofString_append_inj]
    decide
  · have hhigh : digits (n / 16) = [(n / 16).digitChar] := by
      rw [digits_eq, if_pos (by omega), Nat.mod_eq_of_lt (by omega), List.nil_append]
    have hsplit : digits n = [] ++ [(n / 16).digitChar, (n % 16).digitChar] := by
      rw [digits_of_le (by omega), hhigh]
      rfl
    rw [hsplit, ne_eq, TraceHash.ofString_append_inj]
    decide

theorem hash_text_ne_of_even (h : Even (n / 256)) :
    ofString (text n) ≠ ofString (text (n + 256)) := by
  by_cases hn : n < 256
  · exact hash_text_ne_of_lt hn
  · have heven := Nat.even_iff.1 h
    have hlow : (n + 256) / 256 = n / 256 + 1 ∧ (n + 256) / 16 % 16 = n / 16 % 16 ∧
        (n + 256) % 16 = n % 16 := by omega
    rw [text, text, digits_low (by omega : 256 ≤ n), digits_low (by omega : 256 ≤ n + 256),
      hlow.1, hlow.2.1, hlow.2.2, ne_eq, TraceHash.ofString_append_inj]
    exact hash_digits_ne (by omega) (by omega)

/-- A text of hexadecimal digits has another hash once bit 8 of its number is flipped. -/
theorem hash_text_ne (n : Nat) : ofString (text n) ≠ ofString (text (n ^^^ 256)) := by
  have hdiv : (n ^^^ 256) / 256 = n / 256 ^^^ 1 := Nat.xor_div_two_pow (n := 8)
  have hmod : (n ^^^ 256) % 256 = n % 256 := by
    have hx : (n ^^^ 256) % 2 ^ 8 = n % 2 ^ 8 ^^^ 256 % 2 ^ 8 := Nat.xor_mod_two_pow
    simpa using hx
  by_cases h : Even (n / 256)
  · rw [Nat.xor_one_of_even h] at hdiv
    have heq : n ^^^ 256 = n + 256 := by omega
    rw [heq]
    exact hash_text_ne_of_even h
  · rw [Nat.xor_one_of_odd (Nat.not_even_iff_odd.1 h)] at hdiv
    have hodd := Nat.not_even_iff.1 h
    have heq : n = (n ^^^ 256) + 256 := by omega
    have heven : Even ((n ^^^ 256) / 256) := by
      rw [hdiv, Nat.even_iff]
      omega
    have hne := hash_text_ne_of_even heven
    rw [← heq] at hne
    exact hne.symm

end Hex

end Lockstep
