import Vorn.Number.Decimal
import Vorn.Proofs.Number.Numerals
import Vorn.Proofs.Number.Packing

/-!
# Decimal numerals

* `DecimalNumeral`: digits with a point and an exponent, the text that they make and the rational
  number that they denote.
* `DecimalNumeral.read?_text`: the text is read as the float nearest to that number.
-/

namespace Vorn

/-- A decimal numeral: the digits before and behind the point, and the exponent with its sign. -/
structure DecimalNumeral where
  negative : Bool
  whole : List Char
  part : List Char
  exponent : Option (Bool × List Char)
  whole_ne : whole ≠ []
  digits : ∀ c ∈ whole ++ part, c.isDigit = true
  exponent_digits : ∀ e ∈ exponent, e.2 ≠ [] ∧ ∀ c ∈ e.2, c.isDigit = true

namespace DecimalNumeral

/-! ## Text and value -/

variable (n : DecimalNumeral)

def signChars : List Char := if n.negative then ['-'] else []

/-- A point stands only before digits. -/
def pointed (part : List Char) : List Char := if part = [] then [] else '.' :: part

/-- The exponent always has a sign. -/
def exponentChars : List Char :=
  match n.exponent with
  | none => []
  | some (negative, ds) => 'e' :: (if negative then '-' else '+') :: ds

def text : String := .ofList (n.signChars ++ (n.whole ++ (pointed n.part ++ n.exponentChars)))

/-- All the digits as one whole number. -/
def digitsValue : ℕ := Nat.ofDigitChars 10 (n.whole ++ n.part) 0

/-- The number behind the mark of the exponent. -/
def exponentValue : ℤ :=
  match n.exponent with
  | none => 0
  | some (negative, ds) =>
    if negative then -(Nat.ofDigitChars 10 ds 0 : ℤ) else Nat.ofDigitChars 10 ds 0

/-- The power of ten that the last digit counts. -/
def power : ℤ := n.exponentValue - n.part.length

/-- The number that the numeral denotes. -/
def value : ℚ := (if n.negative then -1 else 1) * (n.digitsValue * 10 ^ n.power)

end DecimalNumeral

/-! ## Reading -/

namespace Decimal

section

variable {c : Char} {cs ds rest : List Char}

/-- A run of digits ends here. -/
def Stops (rest : List Char) : Prop :=
  ∀ c cs, rest = c :: cs → c.isDigit = false ∧ c ≠ '_'

theorem digitRun_cons (h : ∀ cs', cs ≠ '_' :: cs') :
    digitRun (c :: cs) =
      if c.isDigit then ((c.toNat - '0'.toNat) :: (digitRun cs).1, (digitRun cs).2)
      else ([], c :: cs) := by
  rw [digitRun]
  exact fun cs' hcs => h cs' hcs

theorem digitRun_of_stops (h : Stops rest) : digitRun rest = ([], rest) := by
  cases rest with
  | nil => rfl
  | cons c cs =>
    have hc := (h c cs rfl).1
    unfold digitRun
    split <;> simp_all

/-- Digits are read up to where they stop. -/
theorem digitRun_append (hds : ∀ c ∈ ds, c.isDigit = true) (hrest : Stops rest) :
    digitRun (ds ++ rest) = (ds.map fun c => c.toNat - '0'.toNat, rest) := by
  induction ds with
  | nil => exact digitRun_of_stops hrest
  | cons c ds ih =>
    rw [List.forall_mem_cons] at hds
    have hne : ∀ cs', ds ++ rest ≠ '_' :: cs' := by
      intro cs' h
      cases ds with
      | nil => exact (hrest '_' cs' h).2 rfl
      | cons d ds =>
        obtain ⟨rfl, -⟩ := List.cons.inj h
        cases hds.2 '_' List.mem_cons_self
    rw [List.cons_append, digitRun_cons hne, if_pos hds.1, ih hds.2]
    rfl

theorem valueOf_map (ds : List Char) :
    valueOf (ds.map fun c => c.toNat - '0'.toNat) = Nat.ofDigitChars 10 ds 0 := by
  rw [valueOf, List.foldl_map, Nat.ofDigitChars_eq_foldl]
  congr 1
  funext m c
  rw [Nat.mul_comm]

end

end Decimal

namespace DecimalNumeral

open Decimal

variable (n : DecimalNumeral)

theorem stops_exponentChars : Stops n.exponentChars := by
  intro c cs h
  unfold exponentChars at h
  split at h <;> cases h
  exact ⟨by decide, by decide⟩

theorem stops_pointed : Stops (pointed n.part ++ n.exponentChars) := by
  unfold pointed
  split
  · exact n.stops_exponentChars
  · rintro c cs h
    cases h
    exact ⟨by decide, by decide⟩

theorem exponent?_exponentChars : Decimal.exponent? n.exponentChars = some n.exponentValue := by
  unfold exponentChars exponentValue
  split
  case h_1 => rfl
  case h_2 negative ds heq =>
    obtain ⟨hne, hds⟩ := n.exponent_digits _ heq
    have hstops : Stops [] := fun c cs h => by cases h
    have hrun := digitRun_append hds hstops
    rw [List.append_nil] at hrun
    obtain ⟨c, cs, rfl⟩ := List.exists_cons_of_ne_nil hne
    have hsign : Decimal.sign ((if negative then '-' else '+') :: c :: cs) =
        (negative, c :: cs) := by cases negative <;> rfl
    rw [← valueOf_map, Decimal.exponent?, if_neg (by decide), hsign]
    dsimp only
    rw [hrun]
    rfl

theorem fraction_pointed : Decimal.fraction (pointed n.part ++ n.exponentChars) =
    (n.part.map fun c => c.toNat - '0'.toNat, n.exponentChars) := by
  have hpart : ∀ c ∈ n.part, c.isDigit = true := fun c hc =>
    n.digits c (List.mem_append_right _ hc)
  unfold pointed
  split
  case isTrue hnil =>
    rw [hnil, List.nil_append]
    have hstops := n.stops_exponentChars
    unfold exponentChars at hstops ⊢
    split <;> rfl
  case isFalse => exact digitRun_append hpart n.stops_exponentChars

/-- The digits and the exponent are read as the nearest float. -/
theorem magnitude?_chars : Decimal.magnitude? (n.whole ++ (pointed n.part ++ n.exponentChars)) =
    some (Decimal.nearest n.digitsValue n.power) := by
  have hwhole : ∀ c ∈ n.whole, c.isDigit = true := fun c hc =>
    n.digits c (List.mem_append_left _ hc)
  rw [Decimal.magnitude?, digitRun_append hwhole n.stops_pointed]
  dsimp only
  rw [fraction_pointed]
  dsimp only
  rw [← List.map_append, exponent?_exponentChars]
  have hvalue := valueOf_map (n.whole ++ n.part)
  obtain ⟨c, cs, hcons⟩ := List.exists_cons_of_ne_nil n.whole_ne
  rw [hcons, List.cons_append, List.map_cons] at hvalue ⊢
  dsimp only
  rw [hvalue, List.length_map, Option.map_some, digitsValue, hcons, List.cons_append]
  rfl

/-- The first character of a number is a digit. -/
theorem exists_head : ∃ c cs, n.whole ++ (pointed n.part ++ n.exponentChars) = c :: cs ∧
    c.isDigit = true := by
  obtain ⟨c, cs, hcons⟩ := List.exists_cons_of_ne_nil n.whole_ne
  refine ⟨c, cs ++ (pointed n.part ++ n.exponentChars), by rw [hcons]; rfl, ?_⟩
  exact n.digits c (List.mem_append_left _ (by rw [hcons]; exact List.mem_cons_self))

/-- A number that starts with a digit is no name. -/
theorem unsigned?_chars : Decimal.unsigned? (n.whole ++ (pointed n.part ++ n.exponentChars)) =
    some (Decimal.nearest n.digitsValue n.power) := by
  have hnumber := n.magnitude?_chars
  obtain ⟨c, cs, hcons, hc⟩ := n.exists_head
  rw [hcons] at hnumber ⊢
  have hlower : c.toLower.isDigit = true := by
    obtain ⟨d, hd, rfl⟩ := Text.exists_eq_digitChar hc
    interval_cases d <;> decide
  have hname : ∀ {name : String} {d : Char} {ds : List Char}, name.toList = d :: ds →
      d.isDigit = false → String.ofList ((c :: cs).map Char.toLower) ≠ name := by
    rintro _ d ds hname hd rfl
    rw [String.toList_ofList, List.map_cons] at hname
    obtain ⟨rfl, -⟩ := List.cons.inj hname
    rw [hlower] at hd
    cases hd
  unfold Decimal.unsigned?
  split
  case h_1 h => exact absurd h (hname rfl (by decide))
  case h_2 h => exact absurd h (hname rfl (by decide))
  case h_3 h => exact absurd h (hname rfl (by decide))
  case h_4 => exact hnumber

/-- The characters of a numeral. -/
theorem mem_chars {c : Char}
    (h : c ∈ n.signChars ++ (n.whole ++ (pointed n.part ++ n.exponentChars))) :
    c.isDigit = true ∨ c ∈ ['-', '+', '.', 'e'] := by
  simp only [List.mem_append] at h
  rcases h with h | h | h | h
  · unfold signChars at h
    split at h
    · exact .inr (by simp_all)
    · cases h
  · exact .inl (n.digits c (List.mem_append_left _ h))
  · unfold pointed at h
    split at h
    · cases h
    · rcases List.mem_cons.mp h with rfl | h
      · exact .inr (by decide)
      · exact .inl (n.digits c (List.mem_append_right _ h))
  · unfold exponentChars at h
    split at h
    case h_1 => cases h
    case h_2 negative ds heq =>
      rcases List.mem_cons.mp h with rfl | h
      · exact .inr (by decide)
      rcases List.mem_cons.mp h with rfl | h
      · cases negative <;> exact .inr (by decide)
      · exact .inl ((n.exponent_digits _ heq).2 c h)

/-- None of them is white space, or a digit of another script. -/
theorem plain_of_mem_chars {c : Char}
    (h : c ∈ n.signChars ++ (n.whole ++ (pointed n.part ++ n.exponentChars))) :
    Text.isSpace c = false ∧ Text.plainDigit c = c := by
  rcases n.mem_chars h with h | h
  · refine ⟨?_, Text.plainDigit_of_isDigit h⟩
    obtain ⟨d, hd, rfl⟩ := Text.exists_eq_digitChar h
    interval_cases d <;> decide
  · fin_cases h <;> decide

theorem trim_of_forall {cs : List Char} (h : ∀ c ∈ cs, Text.isSpace c = false) :
    Text.dropTail Text.isSpace (Text.dropHead Text.isSpace cs) = cs := by
  have hhead : ∀ cs : List Char, (∀ c ∈ cs, Text.isSpace c = false) →
      cs.dropWhile Text.isSpace = cs := by
    intro cs h
    cases cs with
    | nil => rfl
    | cons c cs => rw [List.dropWhile_cons_of_neg (by rw [h c List.mem_cons_self]; decide)]
  rw [Text.dropTail, Text.dropHead, hhead cs h,
    hhead cs.reverse (fun c hc => h c (List.mem_reverse.mp hc)), List.reverse_reverse]

theorem sign_chars :
    Decimal.sign (n.signChars ++ (n.whole ++ (pointed n.part ++ n.exponentChars))) =
      (n.negative, n.whole ++ (pointed n.part ++ n.exponentChars)) := by
  unfold signChars
  cases n.negative with
  | true => rfl
  | false =>
    obtain ⟨c, cs, hcons, hc⟩ := n.exists_head
    rw [hcons]
    change Decimal.sign (c :: cs) = _
    unfold Decimal.sign
    split
    case h_1 h | h_2 h =>
      obtain ⟨rfl, -⟩ := List.cons.inj h
      cases hc
    case h_3 => rfl

/-- **The text of a numeral is read as the nearest float.** -/
theorem read?_text : Decimal.read? n.text =
    some (Rounding.unsigned n.negative (Decimal.nearest n.digitsValue n.power)) := by
  have hmap := List.map_congr_left fun c hc => (n.plain_of_mem_chars (c := c) hc).2
  rw [List.map_id'] at hmap
  rw [Decimal.read?, text, String.toList_ofList,
    trim_of_forall fun c hc => (n.plain_of_mem_chars hc).1, hmap, sign_chars]
  dsimp only
  rw [unsigned?_chars]
  rfl

end DecimalNumeral

end Vorn
