import Vorn.Proofs.Eval.Conversion
import Vorn.Proofs.Number.Numerals

/-!
# Integers in text

* `integer_text_round_trip`: an integer of 64 bits is read back from its text, and texts that are
  read give integers of 64 bits.
* `integer_grammar`: the texts that are read as integers, and what they are read as. The digits of
  any script count, and an underscore may stand behind the mark of a base
  (`underscore_behind_mark`).
-/

namespace Vorn

namespace Numeral

/-- **The text of an integer is read as the integer**, if it is in range. -/
theorem read?_text (n : Int) :
    read? (text n) = if decimalLimit < (Nat.toDigits 10 n.natAbs).length then none
      else (some n).filter fun n => Word.InRange n := by
  cases n with
  | ofNat n =>
    have htext : (text (.ofNat n)).toList = Nat.toDigits 10 n := by
      rw [text, Nat.repr_eq_ofList_toDigits, String.toList_ofList]
    rw [read?, htext, sign_toDigits]
    dsimp only
    rw [body?_toDigits, Int.natAbs_ofNat']
    split <;> rfl
  | negSucc n =>
    have htext : (text (.negSucc n)).toList = '-' :: Nat.toDigits 10 (n + 1) := by
      rw [text, String.toList_append, Nat.repr_eq_ofList_toDigits, String.toList_ofList]
      simp
    rw [read?, htext, sign]
    dsimp only
    rw [body?_toDigits, Int.natAbs_negSucc]
    split <;> rfl

theorem length_toDigits_le {n : Int} (h : Word.InRange n) :
    (Nat.toDigits 10 n.natAbs).length ≤ decimalLimit := by
  have hlength : (Nat.toDigits 10 n.natAbs).length ≤ 19 := by
    rw [Nat.length_toDigits_le_iff (by decide) (by decide)]
    simp only [Word.InRange, Word.min, Word.max] at h
    omega
  exact Nat.le_trans hlength (by decide)

theorem read?_text_of_inRange {n : Int} (h : Word.InRange n) : read? (text n) = some n := by
  rw [read?_text, if_neg (Nat.not_lt.mpr (length_toDigits_le h)), Option.filter_some]
  exact if_pos (decide_eq_true h)

theorem read?_text_of_not_inRange {n : Int} (h : ¬ Word.InRange n) : read? (text n) = none := by
  have hnone : (some n).filter (fun n => Word.InRange n) = none := by
    simpa using h
  rw [read?_text, hnone, ite_self]

end Numeral

/-- **Integers come back from their text.** An integer of 64 bits is read back from its decimal
text, which is how it is shown; so `int(string(x))` is `x`. Whatever text is read, the result is an
integer of 64 bits, and the decimal text of any other integer is not read. -/
theorem integer_text_round_trip (settings : Settings) :
    (∀ n, Word.InRange n → Numeral.read? (Numeral.text n) = some n ∧
      ∀ s p pos pos', s.store.inspect? (.int n p) = some (Numeral.text n) ∧
        Builtin.compose settings pos pos' .string .int (.int n p) s =
          .done (.ok (.int n pos) (Builtin.composed settings .string .int s))) ∧
    (∀ t n, Numeral.read? t = some n → Word.InRange n) ∧
    ∀ n, ¬ Word.InRange n → Numeral.read? (Numeral.text n) = none := by
  refine ⟨fun n hn => ⟨Numeral.read?_text_of_inRange hn, fun s p pos pos' => ?_⟩,
    fun t n h => Numeral.inRange_of_read? h, fun n hn => Numeral.read?_text_of_not_inRange hn⟩
  have hshown : s.store.inspect? (.int n p) = some (Numeral.text n) := by
    rw [Store.inspect?, Store.snapshot?]
    cases s.store.collections <;> rfl
  refine ⟨hshown, ?_⟩
  rw [Builtin.compose_string settings pos pos' hshown, Builtin.apply_eq settings pos' _ rfl,
    Builtin.run, Script.run_lift, Builtin.toInt, Numeral.read?_text_of_inRange hn]
  rfl

/-- The least integer comes back, a marked number is in range, and what is one too large is not
read. -/
theorem integer_text_round_trip_extremes :
    Word.InRange (-2 ^ 63) ∧ Numeral.read? (Numeral.text (-2 ^ 63)) = some (-2 ^ 63) ∧
      Word.InRange 16 ∧ ¬ Word.InRange (2 ^ 63) ∧ Numeral.read? (Numeral.text (2 ^ 63)) = none := by
  have h := integer_text_round_trip {}
  have hleast : Word.InRange (-2 ^ 63) := by decide
  have hlarge : ¬ Word.InRange (2 ^ 63) := by decide
  exact ⟨hleast, (h.1 _ hleast).1, h.2.1 "0x10" 16 (by decide), hlarge, h.2.2 _ hlarge⟩

/-! ## The grammar -/

namespace Numeral

/-- A number as its reader describes it: the mark of a base and digits of that base, a zero and
octal digits, or a decimal number that starts with no zero. -/
inductive Documented : List Char → Nat → Prop
  | marked {ds : List Char} {m : Char} {base n : Nat} (hm : baseOf? m = some base)
      (h : Digits base ds n) : Documented ('0' :: m :: ds) n
  | octal {ds : List Char} {n : Nat} (h : Digits 8 ('0' :: ds) n) : Documented ('0' :: ds) n
  | decimal {cs : List Char} {n : Nat} (h : Digits 10 cs n) (hzero : cs.head? ≠ some '0') :
      Documented cs n

/-- Texts that are read may have an underscore behind the mark of a base. -/
theorem underscore_behind_mark :
    ¬ ∀ text v, read? text = some v ↔ Signed Documented text v ∧ Word.InRange v := by
  intro h
  obtain ⟨⟨mark, cs, n, htext, hn, -⟩, -⟩ := (h "0x_1F" 31).mp (by decide)
  have hcs : cs = ['0', 'x', '_', '1', 'F'] := by
    cases mark with
    | none => exact htext.symm
    | plus | minus => cases (List.cons.inj htext).1
  subst hcs
  cases hn with
  | marked hm h =>
    obtain ⟨c, rest, d, hcons, hd⟩ := h.exists_head
    obtain ⟨rfl, -⟩ := List.cons.inj hcons
    cases (digit?_underscore _).symm.trans hd
  | octal h => cases (digits?_eq_some_iff.mpr h).symm.trans (by decide : _ = none)
  | decimal _ hzero => exact hzero rfl

end Numeral

open Numeral in
/-- **The texts that are read as integers.** At most one sign, and then a number with the mark of
its base, an octal number behind a zero, or a decimal number, whose value is in range. -/
theorem integer_grammar {text : String} (h : Ordinary text) {v : Int} :
    read? text = some v ↔ Signed Unsigned text v ∧ Word.InRange v := by
  have hbody {w : Int} := body?_eq_some_iff (v := w) h.sign_rest h.no_mark
  rw [read?, Option.filter_eq_some_iff, decide_eq_true_iff, Option.map_eq_some_iff]
  refine and_congr_left fun _ => ?_
  constructor
  · rintro ⟨w, hw, rfl⟩
    obtain ⟨n, hn, rfl⟩ := hbody.mp hw
    obtain ⟨mark, htext, hmark⟩ := exists_mark text.toList
    exact ⟨mark, _, n, htext, hn, by rw [hmark]⟩
  · rintro ⟨mark, cs, n, htext, hn, rfl⟩
    have hsplit := sign_append mark hn.sign_eq
    rw [← htext] at hsplit
    rw [hsplit] at hbody ⊢
    exact ⟨n, hbody.mpr ⟨n, hn, rfl⟩, rfl⟩

/-- A sign, a mark and an underscore between digits. -/
theorem integer_grammar_negative_binary :
    Numeral.Ordinary "-0b1_01" ∧ Numeral.read? "-0b1_01" = some (-5) := by
  have hordinary : Numeral.Ordinary "-0b1_01" :=
    ⟨by decide, by rintro d m rest ⟨⟩ hd; cases hd⟩
  have hnumber : Numeral.Unsigned ['0', 'b', '1', '_', '0', '1'] 5 :=
    .marked (by decide : _ = '0' :: 'b' :: ['1', '_', '0', '1']) (rfl : _ = some 2)
      (Numeral.digits?_eq_some_iff.mp rfl)
  exact ⟨hordinary, (integer_grammar hordinary).mpr
    ⟨⟨.minus, _, 5, by decide, hnumber, by decide⟩, by decide⟩⟩

end Vorn
