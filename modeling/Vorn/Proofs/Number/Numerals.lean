import Mathlib.Tactic.IntervalCases
import Vorn.Number.Numeral

/-!
# Integer numerals

The grammar of the texts that are read as integers, apart from the reader.

* `Digits`: digits of a base with single underscores between them, and the number they write;
  `digits?_eq_some_iff` says that the reader follows it.
* `Unsigned`: a number without sign, in the base that its head selects. `body?_eq_some_iff` says
  that the reader follows it, on texts that start with no sign and in which no mark of a base stands
  behind a leading zero.
* `Signed`: a number behind at most one sign.
* `body?_toDigits`: decimal digits are read as the number they stand for.
-/

namespace Vorn

namespace Text

theorem decimal?_le {c : Char} {d : Nat} (h : decimal? c = some d) : d ≤ 9 := by
  obtain ⟨z, hz, rfl⟩ := Option.map_eq_some_iff.mp h
  have hrange := List.find?_some hz
  simp only [Bool.and_eq_true, decide_eq_true_eq] at hrange
  omega

theorem plainDigit_of_decimal? {c : Char} {d : Nat} (h : decimal? c = some d) :
    plainDigit c = Nat.digitChar d := by
  have hd := decimal?_le h
  rw [plainDigit, h]
  dsimp only
  interval_cases d <;> rfl

theorem exists_eq_digitChar {c : Char} (h : c.isDigit = true) : ∃ d < 10, c = Nat.digitChar d := by
  rw [Char.isDigit_iff_toNat] at h
  have hlow : 48 ≤ c.toNat := h.1
  have hhigh : c.toNat ≤ 57 := h.2
  refine ⟨c.toNat - 48, by omega, Char.toNat_inj.mp ?_⟩
  rw [Nat.toNat_digitChar_of_lt_ten (by omega)]
  omega

/-- The digits zero to nine stay as they are. -/
theorem plainDigit_of_isDigit {c : Char} (h : c.isDigit = true) : plainDigit c = c := by
  obtain ⟨d, hd, rfl⟩ := exists_eq_digitChar h
  interval_cases d <;> decide

end Text

namespace Numeral

/-- One or more digits of a base, with single underscores between digits, and the number that they
write. -/
inductive Digits (base : Nat) : List Char → Nat → Prop
  | single {c : Char} {d : Nat} (hc : digit? base c = some d) : Digits base [c] d
  | next {cs : List Char} {c : Char} {n d : Nat} (h : Digits base cs n)
      (hc : digit? base c = some d) : Digits base (cs ++ [c]) (n * base + d)
  | apart {cs : List Char} {c : Char} {n d : Nat} (h : Digits base cs n)
      (hc : digit? base c = some d) : Digits base (cs ++ ['_', c]) (n * base + d)

section

variable {base n : Nat} {cs ds : List Char} {c : Char}

theorem digit?_underscore (base : Nat) : digit? base '_' = none := by
  rw [digit?, show digitValue? '_' = none by decide]
  rfl

theorem continue?_cons (hc : c ≠ '_') (cs : List Char) (n : Nat) :
    continue? base n (c :: cs) =
      (digit? base c).bind fun d => continue? base (n * base + d) cs := by
  rw [continue?]
  rintro _ _ rfl
  exact absurd rfl hc

/-- Digits that continue other digits. -/
theorem Digits.of_continue? {pre : List Char} {m : Nat} (hpre : Digits base pre m)
    (h : continue? base m cs = some n) : Digits base (pre ++ cs) n := by
  fun_induction continue? base m cs generalizing pre with
  | case1 m =>
    cases h
    simpa using hpre
  | case2 m c cs ih =>
    obtain ⟨d, hd, hrest⟩ := Option.bind_eq_some_iff.mp h
    have hall := ih d (hpre.apart hd) hrest
    simpa using hall
  | case3 m c cs _ ih =>
    obtain ⟨d, hd, hrest⟩ := Option.bind_eq_some_iff.mp h
    have hall := ih d (hpre.next hd) hrest
    simpa using hall

theorem continue?_append {m : Nat} (h : continue? base m cs = some n) (ds : List Char) :
    continue? base m (cs ++ ds) = continue? base n ds := by
  fun_induction continue? base m cs with
  | case1 m =>
    cases h
    rfl
  | case2 m c cs ih =>
    obtain ⟨d, hd, hrest⟩ := Option.bind_eq_some_iff.mp h
    rw [List.cons_append, List.cons_append, continue?, hd]
    exact ih d hrest
  | case3 m c cs hoverlap ih =>
    obtain ⟨d, hd, hrest⟩ := Option.bind_eq_some_iff.mp h
    have hc : c ≠ '_' := by
      rintro rfl
      rw [digit?_underscore] at hd
      cases hd
    rw [List.cons_append, continue?_cons hc, hd]
    exact ih d hrest

theorem digits?_append (h : digits? base cs = some n) (ds : List Char) :
    digits? base (cs ++ ds) = continue? base n ds := by
  cases cs with
  | nil => cases h
  | cons c cs =>
    obtain ⟨d, hd, hrest⟩ := Option.bind_eq_some_iff.mp h
    rw [List.cons_append, digits?, hd]
    exact continue?_append hrest ds

/-- **The reader of digits follows the grammar.** -/
theorem digits?_eq_some_iff : digits? base cs = some n ↔ Digits base cs n := by
  constructor
  · intro h
    cases cs with
    | nil => cases h
    | cons c cs =>
      obtain ⟨d, hd, hrest⟩ := Option.bind_eq_some_iff.mp h
      exact (Digits.single hd).of_continue? hrest
  · intro h
    induction h with
    | single hc => rw [digits?, hc]; rfl
    | @next cs c n d h hc ih =>
      have hne : c ≠ '_' := by
        rintro rfl
        rw [digit?_underscore] at hc
        cases hc
      rw [digits?_append ih, continue?_cons hne, hc]
      rfl
    | apart h hc ih =>
      rw [digits?_append ih, continue?, hc]
      rfl

/-- Digits start with a digit. -/
theorem Digits.exists_head (h : Digits base cs n) :
    ∃ c rest d, cs = c :: rest ∧ digit? base c = some d := by
  rw [← digits?_eq_some_iff] at h
  cases cs with
  | nil => cases h
  | cons c rest =>
    obtain ⟨d, hd, -⟩ := Option.bind_eq_some_iff.mp h
    exact ⟨c, rest, d, rfl, hd⟩

theorem digit?_eq_zero {base : Nat} (hbase : 0 < base) (h : digit? 10 c = some 0) :
    digit? base c = some 0 := by
  obtain ⟨hvalue, -⟩ := Option.filter_eq_some_iff.mp h
  exact Option.filter_eq_some_iff.mpr ⟨hvalue, decide_eq_true hbase⟩

/-- Zeros are zero in every base. -/
theorem Digits.zero (hbase : 0 < base) (h : Digits 10 cs n) (hn : n = 0) : Digits base cs 0 := by
  induction h with
  | single hc =>
    subst hn
    exact .single (digit?_eq_zero hbase hc)
  | @next cs c m d _ hc ih =>
    obtain ⟨rfl, rfl⟩ : m = 0 ∧ d = 0 := by omega
    simpa using (ih rfl).next (digit?_eq_zero hbase hc)
  | @apart cs c m d _ hc ih =>
    obtain ⟨rfl, rfl⟩ : m = 0 ∧ d = 0 := by omega
    simpa using (ih rfl).apart (digit?_eq_zero hbase hc)

end

/-! ## Numbers without sign -/

/-- A number without sign. The digits of any script count as digits. -/
inductive Unsigned : List Char → Nat → Prop
  /-- The mark of a base and digits of that base. -/
  | marked {cs ds : List Char} {m : Char} {base n : Nat}
      (hcs : cs.map Text.plainDigit = '0' :: m :: ds) (hm : baseOf? m = some base)
      (h : Digits base ds n) : Unsigned cs n
  /-- An underscore may stand behind the mark. -/
  | markedApart {cs ds : List Char} {m : Char} {base n : Nat}
      (hcs : cs.map Text.plainDigit = '0' :: m :: '_' :: ds) (hm : baseOf? m = some base)
      (h : Digits base ds n) : Unsigned cs n
  /-- A zero in front of a digit makes the number octal, if it is the zero of ASCII. -/
  | octal {d : Char} {rest : List Char} {n : Nat} (hd : (Text.decimal? d).isSome)
      (h : Digits 8 ((d :: rest).map Text.plainDigit) n) : Unsigned ('0' :: d :: rest) n
  /-- A decimal number has limited length and starts with a zero only if it is zero. -/
  | decimal {cs : List Char} {n : Nat} (h : Digits 10 (cs.map Text.plainDigit) n)
      (hlimit : (cs.map Text.plainDigit).countP (· != '_') ≤ decimalLimit)
      (hzero : (cs.map Text.plainDigit).head? = some '0' → n = 0) : Unsigned cs n

section

variable {base n : Nat} {cs : List Char} {m d : Char}

/-- The letter that marks a base is neither a decimal digit nor an underscore. -/
theorem of_baseOf? (h : baseOf? m = some base) : digit? 10 m = none ∧ m ≠ '_' := by
  unfold baseOf? at h
  split at h <;> first | exact ⟨by decide, by decide⟩ | cases h

theorem baseOf?_plainDigit (h : (Text.decimal? d).isSome) : baseOf? (Text.plainDigit d) = none := by
  obtain ⟨k, hk⟩ := Option.isSome_iff_exists.mp h
  have hle := Text.decimal?_le hk
  rw [Text.plainDigit_of_decimal? hk]
  interval_cases k <;> rfl

theorem marked?_eq_some_iff :
    marked? base cs = some n ↔ Digits base cs n ∨ ∃ ds, cs = '_' :: ds ∧ Digits base ds n := by
  simp only [← digits?_eq_some_iff]
  unfold marked?
  split
  case h_1 ds =>
    have hnone : digits? base ('_' :: ds) = none := by rw [digits?, digit?_underscore]; rfl
    simp [hnone]
  case h_2 hne =>
    refine ⟨.inl, fun h => h.resolve_right ?_⟩
    rintro ⟨ds, rfl, -⟩
    exact hne ds rfl

theorem decimal?_eq_some_iff :
    decimal? cs = some n ↔ cs.countP (· != '_') ≤ decimalLimit ∧ Digits 10 cs n := by
  rw [decimal?, ← digits?_eq_some_iff]
  by_cases hlimit : decimalLimit < cs.countP (· != '_')
  · simp [hlimit]
  · simp [hlimit, Nat.not_lt.mp hlimit]

/-- What a mark at the head announces is no decimal number. -/
theorem decimal?_of_mark (hm : baseOf? m = some base) (cs : List Char) :
    decimal? ('0' :: m :: cs) = none := by
  obtain ⟨hdigit, hne⟩ := of_baseOf? hm
  have hdigits : digits? 10 ('0' :: m :: cs) = none := by
    rw [digits?, show digit? 10 '0' = some 0 by decide]
    change continue? 10 0 (m :: cs) = none
    rw [continue?_cons hne, hdigit]
    rfl
  rw [decimal?, hdigits, ite_self]

theorem based?_eq_some_iff :
    based? cs = some n ↔
      (∃ m ds base, cs = '0' :: m :: ds ∧ baseOf? m = some base ∧ marked? base ds = some n) ∨
        decimal? cs = some n ∧ (cs.head? = some '0' → n = 0) := by
  unfold based?
  split
  case h_1 m ds =>
    cases hm : baseOf? m with
    | some base => simp [decimal?_of_mark hm, hm]
    | none => simp [Option.filter_eq_some_iff, hm]
  case h_2 hne =>
    constructor
    · intro h
      refine .inr ⟨h, fun hhead => ?_⟩
      obtain ⟨rest, rfl⟩ := List.head?_eq_some_iff.mp hhead
      cases rest with
      | nil =>
        have hzero : decimal? ['0'] = some 0 := by decide
        rw [hzero] at h
        exact (Option.some.inj h).symm
      | cons c rest => exact absurd rfl (hne c rest)
    · rintro (⟨m, ds, base, rfl, -⟩ | ⟨h, -⟩)
      · exact absurd rfl (hne m ds)
      · exact h

/-- A number that a second mark does not stand in is octal behind its zero. -/
theorem octal?_eq {rest : List Char}
    (hmark : ∀ m rest', rest = m :: rest' → Text.plainDigit d = '0' →
      baseOf? (Text.plainDigit m) ≠ some 8) :
    octal? ((d :: rest).map Text.plainDigit) = digits? 8 ((d :: rest).map Text.plainDigit) := by
  unfold octal?
  split
  case h_1 m ds heq =>
    obtain ⟨hd, hrest⟩ := List.cons.inj heq
    obtain ⟨c, rest, rfl, rfl, rfl⟩ := List.map_eq_cons_iff.mp hrest
    rw [if_neg (hmark c rest rfl hd), List.map_cons, List.map_cons, hd]
  case h_2 => rfl

/-- The text starts with a zero and a digit. -/
def LeadsWithZero (cs : List Char) : Prop :=
  ∃ d rest, cs = '0' :: d :: rest ∧ (Text.decimal? d).isSome

/-- Without a sign at its head, a number that does not start with a zero and a digit is read in the
base that its mark selects. -/
theorem body?_of_not_leadsWithZero (hsign : sign cs = (false, cs)) (h : ¬ LeadsWithZero cs) :
    body? cs = (based? (cs.map Text.plainDigit)).map Int.ofNat := by
  unfold body?
  split
  case h_1 d rest =>
    rw [if_neg fun hd => h ⟨d, rest, rfl, hd⟩]
  case h_2 =>
    rw [hsign]
    dsimp only
    cases based? (cs.map Text.plainDigit) <;> rfl

/-- A zero in front of digits adds nothing. -/
theorem digits?_zero_cons (hbase : 0 < base) (hd : d ≠ '_') (cs : List Char) :
    digits? base ('0' :: d :: cs) = digits? base (d :: cs) := by
  have hzero : digit? base '0' = some 0 := digit?_eq_zero hbase (by decide)
  rw [digits?, hzero]
  change continue? base 0 (d :: cs) = _
  rw [continue?_cons hd, digits?]
  simp only [Nat.zero_mul, Nat.zero_add]

theorem plainDigit_ne_underscore (h : (Text.decimal? d).isSome) : Text.plainDigit d ≠ '_' := by
  obtain ⟨k, hk⟩ := Option.isSome_iff_exists.mp h
  have hle := Text.decimal?_le hk
  rw [Text.plainDigit_of_decimal? hk]
  interval_cases k <;> decide

/-- Behind a zero in front of a digit stands an octal number. -/
theorem Unsigned.octal_of_leading {rest : List Char} (hd : (Text.decimal? d).isSome)
    (h : Unsigned ('0' :: d :: rest) n) : Digits 8 ((d :: rest).map Text.plainDigit) n := by
  have hzero : Text.plainDigit '0' = '0' := by decide
  cases h with
  | marked hcs hm | markedApart hcs hm =>
    obtain ⟨-, htail⟩ := List.cons.inj hcs
    obtain ⟨rfl, -⟩ := List.cons.inj htail
    rw [baseOf?_plainDigit hd] at hm
    cases hm
  | octal _ h => exact h
  | decimal h _ hz =>
    have hn : n = 0 := hz (by rw [List.map_cons, hzero]; rfl)
    have hdigits : Digits 8 _ 0 := h.zero (by decide) hn
    rw [List.map_cons, List.map_cons, hzero, ← digits?_eq_some_iff,
      digits?_zero_cons (by decide) (plainDigit_ne_underscore hd), digits?_eq_some_iff] at hdigits
    rw [hn]
    exact hdigits

/-- **The reader of numbers without sign follows the grammar**, if no sign stands at the head and no
second mark behind a leading zero. -/
theorem body?_eq_some_iff (hsign : sign cs = (false, cs))
    (hmark : ∀ d m rest, cs = '0' :: d :: m :: rest → Text.plainDigit d = '0' →
      baseOf? (Text.plainDigit m) ≠ some 8) {v : Int} :
    body? cs = some v ↔ ∃ n : Nat, Unsigned cs n ∧ v = n := by
  by_cases hlead : LeadsWithZero cs
  · obtain ⟨d, rest, rfl, hd⟩ := hlead
    have hbody : body? ('0' :: d :: rest) =
        (digits? 8 ((d :: rest).map Text.plainDigit)).map Int.ofNat := by
      rw [body?, if_pos hd, octal?_eq fun m rest' hrest => hmark d m rest' (by rw [hrest])]
    rw [hbody, Option.map_eq_some_iff]
    constructor
    · rintro ⟨n, hn, rfl⟩
      exact ⟨n, .octal hd (digits?_eq_some_iff.mp hn), rfl⟩
    · rintro ⟨n, hn, rfl⟩
      exact ⟨n, digits?_eq_some_iff.mpr (hn.octal_of_leading hd), rfl⟩
  · rw [body?_of_not_leadsWithZero hsign hlead, Option.map_eq_some_iff]
    constructor
    · rintro ⟨n, hn, rfl⟩
      refine ⟨n, ?_, rfl⟩
      rcases based?_eq_some_iff.mp hn with ⟨m, ds, base, hcs, hm, hds⟩ | ⟨hn, hzero⟩
      · rcases marked?_eq_some_iff.mp hds with hds | ⟨ds', rfl, hds'⟩
        · exact .marked hcs hm hds
        · exact .markedApart hcs hm hds'
      · obtain ⟨hlimit, hdigits⟩ := decimal?_eq_some_iff.mp hn
        exact .decimal hdigits hlimit hzero
    · rintro ⟨n, hn, rfl⟩
      refine ⟨n, based?_eq_some_iff.mpr ?_, rfl⟩
      cases hn with
      | marked hcs hm h =>
        exact .inl ⟨_, _, _, hcs, hm, marked?_eq_some_iff.mpr (.inl h)⟩
      | markedApart hcs hm h =>
        exact .inl ⟨_, _, _, hcs, hm, marked?_eq_some_iff.mpr (.inr ⟨_, rfl, h⟩)⟩
      | octal hd => exact absurd ⟨_, _, rfl, hd⟩ hlead
      | decimal h hlimit hzero => exact .inr ⟨decimal?_eq_some_iff.mpr ⟨hlimit, h⟩, hzero⟩

end

/-! ## Signs -/

/-- What may stand before a number: nothing, or one sign. -/
inductive SignMark
  | none
  | plus
  | minus
deriving DecidableEq

def SignMark.chars : SignMark → List Char
  | none => []
  | plus => ['+']
  | minus => ['-']

def SignMark.negative : SignMark → Bool
  | minus => true
  | none | plus => false

/-- At most one sign and a number, which follows the given grammar. -/
def Signed (number : List Char → Nat → Prop) (text : String) (v : Int) : Prop :=
  ∃ (mark : SignMark) (cs : List Char) (n : Nat),
    text.toList = mark.chars ++ cs ∧ number cs n ∧ v = signed mark.negative n

/-- Behind its sign the text has no second sign, and no mark of base eight behind two zeros. -/
structure Ordinary (text : String) : Prop where
  sign_rest : sign (sign text.toList).2 = (false, (sign text.toList).2)
  no_mark : ∀ d m rest, (sign text.toList).2 = '0' :: d :: m :: rest → Text.plainDigit d = '0' →
    baseOf? (Text.plainDigit m) ≠ some 8

section

variable {n : Nat} {cs : List Char}

theorem exists_mark (cs : List Char) :
    ∃ mark : SignMark, cs = mark.chars ++ (sign cs).2 ∧ (sign cs).1 = mark.negative := by
  unfold sign
  split
  case h_1 => exact ⟨.plus, rfl, rfl⟩
  case h_2 => exact ⟨.minus, rfl, rfl⟩
  case h_3 => exact ⟨.none, rfl, rfl⟩

theorem sign_append (mark : SignMark) (h : sign cs = (false, cs)) :
    sign (mark.chars ++ cs) = (mark.negative, cs) := by
  cases mark with
  | none => exact h
  | plus | minus => rfl

/-- A number starts with a digit. -/
theorem Unsigned.exists_head (h : Unsigned cs n) :
    ∃ c rest d, cs = c :: rest ∧ digit? 10 (Text.plainDigit c) = some d := by
  have hzero : digit? 10 '0' = some 0 := by decide
  cases h with
  | marked hcs | markedApart hcs =>
    obtain ⟨c, rest, rfl, hc, -⟩ := List.map_eq_cons_iff.mp hcs
    exact ⟨c, rest, 0, rfl, hc ▸ hzero⟩
  | octal => exact ⟨_, _, 0, rfl, by decide⟩
  | decimal h =>
    obtain ⟨c', rest', d, hcs, hc⟩ := h.exists_head
    obtain ⟨c, rest, rfl, rfl, -⟩ := List.map_eq_cons_iff.mp hcs
    exact ⟨c, rest, d, rfl, hc⟩

theorem Unsigned.sign_eq (h : Unsigned cs n) : sign cs = (false, cs) := by
  obtain ⟨c, rest, d, rfl, hc⟩ := h.exists_head
  unfold sign
  split
  case h_1 heq | h_2 heq =>
    obtain ⟨rfl, -⟩ := List.cons.inj heq
    cases hc.symm.trans (by decide : _ = none)
  case h_3 => rfl

end

/-! ## Decimal digits -/

theorem digit?_digitChar {d : Nat} (h : d < 10) : digit? 10 (Nat.digitChar d) = some d := by
  interval_cases d <;> rfl

theorem digits_toDigits (n : Nat) : Digits 10 (Nat.toDigits 10 n) n := by
  induction n using Nat.strongRecOn with
  | ind n ih =>
    rcases Nat.lt_or_ge n 10 with hn | hn
    · rw [Nat.toDigits_of_lt_base hn]
      exact .single (digit?_digitChar hn)
    · rw [Nat.toDigits_of_base_le (by decide) hn]
      have hnext := (ih (n / 10) (by omega)).next (digit?_digitChar (d := n % 10) (by omega))
      rwa [Nat.div_add_mod'] at hnext

theorem isDigit_toDigits (n : Nat) : ∀ c ∈ Nat.toDigits 10 n, c.isDigit = true := fun _ hc =>
  Nat.isDigit_of_mem_toDigits (by decide) (by decide) hc

theorem sign_toDigits (n : Nat) : sign (Nat.toDigits 10 n) = (false, Nat.toDigits 10 n) := by
  have hdigits := isDigit_toDigits n
  unfold sign
  split
  case h_1 h | h_2 h =>
    rw [h, List.forall_mem_cons] at hdigits
    cases hdigits.1
  case h_3 => rfl

theorem map_plainDigit_toDigits (n : Nat) :
    (Nat.toDigits 10 n).map Text.plainDigit = Nat.toDigits 10 n :=
  List.map_congr_left (fun c hc => Text.plainDigit_of_isDigit (isDigit_toDigits n c hc)) |>.trans
    (List.map_id _)

theorem decimal?_toDigits (n : Nat) :
    decimal? (Nat.toDigits 10 n) =
      if decimalLimit < (Nat.toDigits 10 n).length then none else some n := by
  have hcount : (Nat.toDigits 10 n).countP (· != '_') = (Nat.toDigits 10 n).length := by
    refine List.countP_eq_length.mpr fun c hc => ?_
    have hdigit := isDigit_toDigits n c hc
    rw [bne_iff_ne]
    rintro rfl
    cases hdigit
  rw [decimal?, hcount, digits?_eq_some_iff.mpr (digits_toDigits n)]

/-- A positive number has no zero at its head. -/
theorem head?_toDigits_ne {n : Nat} (h : 0 < n) : (Nat.toDigits 10 n).head? ≠ some '0' := by
  induction n using Nat.strongRecOn with
  | ind n ih =>
    rcases Nat.lt_or_ge n 10 with hn | hn
    · rw [Nat.toDigits_of_lt_base hn]
      interval_cases n <;> decide
    · have hhead := ih (n / 10) (by omega) (by omega)
      obtain ⟨c, rest, hcons⟩ := List.exists_cons_of_ne_nil
        (Nat.toDigits_ne_nil : Nat.toDigits 10 (n / 10) ≠ [])
      rw [Nat.toDigits_of_base_le (by decide) hn]
      rw [hcons] at hhead ⊢
      exact hhead

/-- **Decimal digits are read as the number they stand for**, if there are not too many. -/
theorem body?_toDigits (n : Nat) :
    body? (Nat.toDigits 10 n) =
      if decimalLimit < (Nat.toDigits 10 n).length then none else some (n : Int) := by
  have hzero : ∀ d rest, Nat.toDigits 10 n ≠ '0' :: d :: rest := by
    intro d rest h
    rcases Nat.eq_zero_or_pos n with rfl | hn
    · cases h
    · exact head?_toDigits_ne hn (by rw [h]; rfl)
  have hbased : based? (Nat.toDigits 10 n) = decimal? (Nat.toDigits 10 n) := by
    unfold based?
    split
    case h_1 m cs h => exact absurd h (hzero m cs)
    case h_2 => rfl
  rw [body?_of_not_leadsWithZero (sign_toDigits n) fun ⟨d, rest, h, _⟩ => hzero d rest h,
    map_plainDigit_toDigits, hbased, decimal?_toDigits]
  split <;> rfl

end Numeral

end Vorn
