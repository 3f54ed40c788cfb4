import Mathlib.Data.List.Forall2
import Vorn.Proofs.Grammar.InOrder
import Vorn.Proofs.Grammar.Provenance

/-!
# Grammar errors come in source order

The grammar is left and entered again after every misfit, and yet its errors go through the text
from front to back. Every one of them is about a token of the text (`Misfit.Concerns`), none about a
token before one that was reported earlier, and since the places of the tokens grow, so do the
places of the errors: `grammar_errors_in_order`.
-/

namespace Vorn

/-! ## Places in order -/

/-- Lines come before columns. -/
instance : LE Pos :=
  ⟨fun p q => p.line < q.line ∨ p.line = q.line ∧ p.column ≤ q.column⟩

namespace Pos

theorem le_def {p q : Pos} :
    p ≤ q ↔ p.line < q.line ∨ p.line = q.line ∧ p.column ≤ q.column := Iff.rfl

protected theorem le_refl (p : Pos) : p ≤ p := .inr ⟨rfl, Nat.le_refl _⟩

protected theorem le_trans {p q r : Pos} (h : p ≤ q) (h' : q ≤ r) : p ≤ r := by
  rw [le_def] at *
  omega

theorem le_next (p : Pos) (c : Char) : p ≤ p.next c := by
  rw [le_def, next]
  split
  · exact .inl (Nat.lt_succ_self _)
  · exact .inr ⟨rfl, Nat.le_succ _⟩

theorem le_after (p : Pos) : ∀ cs : List Char, p ≤ p.after cs
  | [] => p.le_refl
  | c :: cs => Pos.le_trans (p.le_next c) (le_after _ cs)

end Pos

namespace Scan

theorem Lexeme.le_finish (l : Lexeme) (p : Pos) : p ≤ l.finish p := by
  have hafter := p.le_after l.text
  unfold finish
  split
  · exact hafter
  · exact Pos.le_trans hafter (.inr ⟨rfl, Nat.le_succ _⟩)

/-- The places of the tokens grow, from the place where the input starts. -/
theorem tokensFrom_ordered (input : List Char) (pos : Pos) :
    (∀ t ∈ tokensFrom input pos, pos ≤ t.pos) ∧
      (tokensFrom input pos).Pairwise fun t u => t.pos ≤ u.pos := by
  fun_induction tokensFrom input pos with
  | case1 input pos text h =>
    have hpos := pos.le_after text
    simp [hpos, Pos.le_refl]
  | case2 input pos text h => simp [pos.le_after text]
  | case3 input pos text c cs h l ih =>
    have hpos := pos.le_after text
    have hrest {t : Token} (ht : t ∈ tokensFrom l.rest (l.finish (pos.after text))) :
        pos.after text ≤ t.pos := Pos.le_trans (l.le_finish _) (ih.1 t ht)
    refine ⟨List.forall_mem_cons.mpr ⟨hpos, fun t ht => Pos.le_trans hpos (hrest ht)⟩, ?_⟩
    exact List.pairwise_cons.mpr ⟨fun t ht => hrest ht, ih.2⟩

end Scan

theorem tokens_ordered (source : String) :
    (tokens source).Pairwise fun t u => t.pos ≤ u.pos :=
  (Scan.tokensFrom_ordered _ _).2

/-! ## Errors and the numbers of their tokens -/

/-- The error is a grammar error about the token with the number `i`. -/
def ParseError.IsAt (ts : List Token) (e : ParseError) (i : Nat) : Prop :=
  ∃ t m, ts[i]? = some t ∧ e = .grammar t.pos m ∧ m.Concerns t

/-- The grammar errors, latest first, with the numbers of their tokens, which do not grow. -/
theorem Reported.numbered {ts us : List Token} {es : List ParseError} (h : Reported ts es us) :
    us <:+ ts ∧ ∃ places : List Nat,
      List.Forall₂ (ParseError.IsAt ts) (es.filter ParseError.isGrammar) places ∧
      places.Pairwise (· ≥ ·) ∧ ∀ i ∈ places, i + us.length ≤ ts.length := by
  induction h with
  | start => exact ⟨List.suffix_rfl, [], .nil, .nil, by simp⟩
  | @grammar es us t vs m h hleft hm ih =>
    obtain ⟨hsuffix, places, hall, hsorted, hbound⟩ := ih
    obtain ⟨before, rfl⟩ := hleft.trans hsuffix
    refine ⟨List.suffix_append _ _, before.length :: places, ?_, ?_, ?_⟩
    · exact .cons ⟨t, m, by simp, rfl, hm⟩ hall
    · refine List.pairwise_cons.mpr ⟨fun i hi => ?_, hsorted⟩
      have hlength := hleft.length_le
      have hle := hbound i hi
      simp only [List.length_append] at hle
      omega
    · refine List.forall_mem_cons.mpr ⟨by simp, fun i hi => ?_⟩
      have := hleft.length_le
      have := hbound i hi
      omega
  | @name es us e h he ih =>
    obtain ⟨hsuffix, places, hall, hrest⟩ := ih
    exact ⟨hsuffix, places, by rwa [List.filter_cons_of_neg (by simp [he])], hrest⟩

theorem exists_place_of_mem {ts : List Token} {es : List ParseError} {places : List Nat}
    (h : List.Forall₂ (ParseError.IsAt ts) es places) {e : ParseError} (he : e ∈ es) :
    ∃ i ∈ places, e.IsAt ts i := by
  induction h with
  | nil => exact nomatch he
  | @cons e' i es places he' _ ih =>
    rcases List.mem_cons.mp he with rfl | he
    · exact ⟨i, List.mem_cons_self, he'⟩
    · obtain ⟨j, hj, hat⟩ := ih he
      exact ⟨j, List.mem_cons_of_mem i hj, hat⟩

/-- Of two errors, the one about the later token stands at no earlier place. -/
theorem ParseError.IsAt.pos_le {ts : List Token} (hts : ts.Pairwise fun t u => t.pos ≤ u.pos)
    {e e' : ParseError} {i j : Nat} (h : e.IsAt ts i) (h' : e'.IsAt ts j) (hij : i ≤ j) :
    e.pos ≤ e'.pos := by
  obtain ⟨t, m, ht, rfl, -⟩ := h
  obtain ⟨t', m', ht', rfl, -⟩ := h'
  obtain ⟨hi, rfl⟩ := List.getElem?_eq_some_iff.mp ht
  obtain ⟨hj, rfl⟩ := List.getElem?_eq_some_iff.mp ht'
  rcases Nat.lt_or_eq_of_le hij with hlt | rfl
  · exact List.pairwise_iff_getElem.mp hts i j hi hj hlt
  · exact Pos.le_refl _

/-- Errors at tokens whose numbers grow stand at places that grow. -/
theorem ParseError.ordered_of_isAt {ts : List Token}
    (hts : ts.Pairwise fun t u => t.pos ≤ u.pos) {es : List ParseError} {places : List Nat}
    (h : List.Forall₂ (ParseError.IsAt ts) es places) (hplaces : places.Pairwise (· ≤ ·)) :
    (es.map ParseError.pos).Pairwise (· ≤ ·) := by
  induction h with
  | nil => exact .nil
  | @cons e i es places he h ih =>
    obtain ⟨hfirst, hrest⟩ := List.pairwise_cons.mp hplaces
    refine List.pairwise_cons.mpr ⟨fun p hp => ?_, ih hrest⟩
    obtain ⟨e', he', rfl⟩ := List.mem_map.mp hp
    obtain ⟨j, hj, hat⟩ := exists_place_of_mem h he'
    exact he.pos_le hts hat (hfirst j hj)

/-- The errors of a text were reported on the way through its tokens. -/
theorem reported_parse (source : String) :
    ∃ es us, Reported (tokens source) es us ∧ (parse source).2 = es.reverse := by
  have hrun := (parse_reads source).1
  have hstart : ReaderState.UpTo (tokens source) .current
      { stream := .ofTokens (tokens source) } := by
    refine ⟨tokens source, .start, ?_⟩
    obtain ⟨t, ts, hts⟩ := List.exists_cons_of_ne_nil (tokens_ne_nil source)
    rw [hts]
    exact List.suffix_rfl
  have horderly := Parse.orderly_programStatements (Parse.fuel (tokens source)) {} _ hstart
  rw [Parse.run] at hrun
  revert hrun horderly
  cases Parse.programStatements (Parse.fuel (tokens source)) {}
      { stream := .ofTokens (tokens source) } with
  | ok ss s =>
    rintro hrun ⟨us, hreported, -⟩
    exact ⟨s.errors, us, hreported, congrArg Prod.snd (Option.some.inj hrun).symm⟩
  | error failure s =>
    intro hrun
    cases hrun

/-- **Grammar errors come in source order.** The grammar errors of any text, in the order in which
they are reported, are each about a token of the text, which stands where the error is reported. The
numbers of these tokens do not decrease: nothing is reported at a token before one that has been
reported on. Nor do their places, in the order of lines and columns. -/
theorem grammar_errors_in_order (source : String) :
    ∃ places : List Nat,
      List.Forall₂ (ParseError.IsAt (tokens source))
        ((parse source).2.filter ParseError.isGrammar) places ∧
      places.Pairwise (· ≤ ·) ∧
      (((parse source).2.filter ParseError.isGrammar).map ParseError.pos).Pairwise (· ≤ ·) := by
  obtain ⟨es, us, hreported, herrors⟩ := reported_parse source
  obtain ⟨-, places, hall, hsorted, -⟩ := hreported.numbered
  have hforward : List.Forall₂ (ParseError.IsAt (tokens source))
      ((parse source).2.filter ParseError.isGrammar) places.reverse := by
    rw [herrors, List.filter_reverse]
    exact List.forall₂_reverse_iff.mpr hall
  have hgrow : places.reverse.Pairwise (· ≤ ·) := List.pairwise_reverse.mpr hsorted
  exact ⟨places.reverse, hforward, hgrow,
    ParseError.ordered_of_isAt (tokens_ordered source) hforward hgrow⟩

end Vorn
