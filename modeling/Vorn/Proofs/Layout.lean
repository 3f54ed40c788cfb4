import Vorn.Proofs.Grammar.Accepted
import Vorn.Proofs.Grammar.Positions
import Vorn.Proofs.Relocation.Task

/-!
# Layout does not matter

Two source texts may differ in their blanks and comments only, so that their tokens differ in
nothing but their places. Then both are refused for the same reasons, or both run and their runs
cannot be told apart but for places (`layout_independent`). Every place is forgotten on both sides:

* `move_forget_of_mem_tokens`: all tokens are taken to one place, and the two texts have the same
  tokens there;
* `parse_forget`: so they have the same tree and the same errors there (`run_move_tokens`);
* `Alike.of_mark_eq`: so the programs run alike (`Session.run_move`).
-/

namespace Vorn

/-! ## Tokens -/

namespace Pos

theorem two_le_column_next {p : Pos} (h : 2 ≤ p.column) (c : Char) : 2 ≤ (p.next c).column := by
  unfold next
  split
  · exact Nat.le_refl 2
  · exact Nat.le_succ_of_le h

theorem two_le_column_after {p : Pos} (h : 2 ≤ p.column) (cs : List Char) :
    2 ≤ (p.after cs).column := by
  induction cs generalizing p with
  | nil => exact h
  | cons c cs ih => exact ih (two_le_column_next h c)

end Pos

namespace Scan

theorem two_le_column_finish {p : Pos} (h : 2 ≤ p.column) (l : Lexeme) :
    2 ≤ (l.finish p).column := by
  have hafter := Pos.two_le_column_after h l.text
  unfold Lexeme.finish
  split
  · exact hafter
  · exact Nat.le_succ_of_le hafter

theorem two_le_column_of_mem_tokensFrom {input : List Char} {pos : Pos} (h : 2 ≤ pos.column) :
    ∀ t ∈ tokensFrom input pos, 2 ≤ t.pos.column := by
  fun_induction tokensFrom input pos with
  | case1 input pos text => simpa using Pos.two_le_column_after h text
  | case2 input pos text => simpa using Pos.two_le_column_after h text
  | case3 input pos text c cs hgap l ih =>
    have hafter := Pos.two_le_column_after h text
    exact List.forall_mem_cons.mpr ⟨hafter, ih (two_le_column_finish hafter l)⟩

end Scan

/-- No token stands left of column 2; the places that no source text has do. -/
theorem two_le_column_of_mem_tokens {source : String} :
    ∀ t ∈ tokens source, 2 ≤ t.pos.column :=
  Scan.two_le_column_of_mem_tokensFrom (Nat.le_refl 2)

/-- All places of source texts become one. -/
def Relocation.forget : Relocation where
  place p := if 2 ≤ p.column then .start else p
  shared := rfl

open Relocation (forget)

/-- What a token says. -/
def Token.reading (t : Token) : Kind × String := (t.kind, t.literal)

theorem move_forget_of_mem_tokens {source : String} {t : Token} (h : t ∈ tokens source) :
    t.move forget.place = ⟨t.reading.1, t.reading.2, .start⟩ := by
  have hplace : forget.place t.pos = .start := if_pos (two_le_column_of_mem_tokens t h)
  rw [Token.move, hplace]
  rfl

/-- Tokens that say the same are the same but for their places. -/
theorem map_forget_tokens {source source' : String}
    (h : (tokens source).map Token.reading = (tokens source').map Token.reading) :
    (tokens source).map (Token.move forget.place) =
      (tokens source').map (Token.move forget.place) := by
  have hmap : ∀ source, (tokens source).map (Token.move forget.place) =
      ((tokens source).map Token.reading).map fun r => ⟨r.1, r.2, .start⟩ := fun source => by
    rw [List.map_map]
    exact List.map_congr_left fun t ht => move_forget_of_mem_tokens ht
  rw [hmap, hmap, h]

/-! ## Trees and errors -/

/-- The message of an error behind its place. -/
def ParseError.wording : ParseError → String
  | .grammar _ misfit => ": " ++ misfit.text
  | .redefined _ name => " can not redefine variable " ++ (name ++ ".")
  | .constAssigned _ name => " can not reassign constant " ++ (name ++ ".")

theorem ParseError.message_eq (e : ParseError) : e.message = e.pos.text ++ e.wording := by
  unfold message
  split
  · rw [String.append_assoc]
    rfl
  · rw [String.append_assoc, String.append_assoc]
    rfl
  · rw [String.append_assoc, String.append_assoc]
    rfl

@[simp] theorem ParseError.wording_move (f : Pos → Pos) (e : ParseError) :
    (e.move f).wording = e.wording := by
  cases e <;> rfl

/-- Tokens that say the same make the same tree and the same errors, but for places. -/
theorem parse_forget {source source' : String}
    (h : (tokens source).map Token.reading = (tokens source').map Token.reading) :
    (parse source).1.mark (.moved forget.place) = (parse source').1.mark (.moved forget.place) ∧
      (parse source).2.map (ParseError.move forget.place) =
        (parse source').2.map (ParseError.move forget.place) := by
  have hlength : (tokens source').length = (tokens source).length := by
    simpa using (congrArg List.length h).symm
  have hrun := run_move_tokens forget.place source (Nat.le_refl _)
  rw [map_forget_tokens h,
    run_move_tokens forget.place source' (by rw [Parse.fuel, Parse.fuel, hlength])] at hrun
  have heq := Option.some.inj hrun
  exact ⟨congrArg Prod.fst heq.symm, congrArg Prod.snd heq.symm⟩

/-! ## Runs -/

/-- How an outcome is shown, without the place of a fault. -/
def Outcome.shown? (s : Store) : Outcome → Option String
  | .value v => s.inspect? v
  | .fault x => some x.cause.text
  | .cut _ => none

theorem Outcome.shown?_move (f : Relocation) (s : Store) (o : Outcome) :
    (o.move f).shown? (s.move f) = o.shown? s := by
  cases o with
  | value v => exact s.inspect?_move f v
  | fault x => rfl
  | cut stop => rfl

theorem Outcome.move_eq_cut_outOfFuel {f : Relocation} {o : Outcome} :
    o.move f = .cut .outOfFuel ↔ o = .cut .outOfFuel := by
  cases o with
  | cut stop => cases stop <;> simp [move, Stop.move]
  | value v => simp [move]
  | fault x => simp [move]

/-- The run of a program comes to an end: there is a bound on the iterations of its loops that cuts
none of them off. -/
def Session.Halts (settings : Settings) (p : Program) (s : State) : Prop :=
  ∃ n, (run { settings with iterations := n } p s).1 ≠ .cut .outOfFuel

/-- Two ends of runs that differ in nothing but places, as far as the outcome, the store and what
was printed go. -/
structure Alike (r r' : Outcome × State) : Prop where
  outcome : r.1.move forget = r'.1.move forget
  store : r.2.store.move forget = r'.2.store.move forget
  output : r.2.output = r'.2.output

namespace Alike

/-- Programs that are the same but for places run alike from the start. -/
theorem of_mark_eq {p p' : Program} (settings : Settings)
    (h : p.mark (.moved forget.place) = p'.mark (.moved forget.place)) :
    Alike (Session.run settings p Session.start) (Session.run settings p' Session.start) := by
  obtain ⟨trace, hrun⟩ := Session.run_move (f := forget) rfl settings p Session.start
  obtain ⟨trace', hrun'⟩ := Session.run_move (f := forget) rfl settings p' Session.start
  rw [h, hrun', Prod.mk.injEq] at hrun
  obtain ⟨houtcome, hstate⟩ := hrun
  exact ⟨houtcome.symm, (congrArg State.store hstate).symm, (congrArg State.output hstate).symm⟩

variable {r r' : Outcome × State}

theorem shown?_eq (h : Alike r r') : r.1.shown? r.2.store = r'.1.shown? r'.2.store := by
  rw [← r.1.shown?_move forget, h.outcome, h.store, Outcome.shown?_move]

theorem outOfFuel_iff (h : Alike r r') : r.1 = .cut .outOfFuel ↔ r'.1 = .cut .outOfFuel := by
  rw [← Outcome.move_eq_cut_outOfFuel, h.outcome, Outcome.move_eq_cut_outOfFuel]

end Alike

/-- **Layout does not matter.** If the tokens of two source texts agree in kinds and literals, then
the texts have the same errors behind their places. If one of them is accepted, so is the other; one
run comes to an end just if the other does, and both print the same, leave the same store and give
the same value, or a fault of the same cause, or are cut off for the same reason. -/
theorem layout_independent {source source' : String}
    (h : (tokens source).map Token.reading = (tokens source').map Token.reading) :
    (parse source).2.map ParseError.wording = (parse source').2.map ParseError.wording ∧
      ∀ p, parse? source = .ok p → ∃ p', parse? source' = .ok p' ∧ ∀ settings,
        (Session.Halts settings p Session.start ↔ Session.Halts settings p' Session.start) ∧
        Alike (Session.run settings p Session.start) (Session.run settings p' Session.start) ∧
        (Session.run settings p Session.start).1.shown?
            (Session.run settings p Session.start).2.store =
          (Session.run settings p' Session.start).1.shown?
            (Session.run settings p' Session.start).2.store := by
  obtain ⟨htree, herrors⟩ := parse_forget h
  constructor
  · have hwording := congrArg (List.map ParseError.wording) herrors
    simpa [List.map_map, Function.comp_def] using hwording
  intro p hp
  rw [parse?_eq_ok] at hp
  rw [hp] at htree herrors
  have hnone : (parse source').2 = [] := List.map_eq_nil_iff.mp herrors.symm
  refine ⟨(parse source').1, parse?_eq_ok.mpr (Prod.ext rfl hnone), fun settings => ?_⟩
  have halike := Alike.of_mark_eq settings htree
  exact ⟨exists_congr fun n => not_congr (Alike.of_mark_eq _ htree).outOfFuel_iff, halike,
    halike.shown?_eq⟩

/-- A program on one line. -/
def onOneLine : String := "let f = func(x) \x7b print([x, \"a\"]); x % 0 \x7d; f(7)"

/-- The same tokens on six lines, with comments. -/
def withComments : String :=
  "// prints, and fails\nlet f = func (x) \x7b\n  print([ x,\t\"a\" ]); /* a\nnote */ x%0\n" ++
    "\x7d;\nf(7)"

/-- Where a run failed. -/
def Outcome.place? : Outcome → Option Pos
  | .fault x => some x.pos
  | _ => none

/-- Both print the same and fail alike, at places of their own. -/
theorem layout_independent_comments :
    (tokens onOneLine).map Token.reading = (tokens withComments).map Token.reading ∧
      ∃ p p', parse? onOneLine = .ok p ∧ parse? withComments = .ok p' ∧
        Alike (Session.run {} p Session.start) (Session.run {} p' Session.start) ∧
        (Session.run {} p Session.start).2.output = "[7, a]\n" ∧
        (Session.run {} p Session.start).1.place? = some ⟨1, 39⟩ ∧
        (Session.run {} p' Session.start).1.place? = some ⟨4, 11⟩ := by
  have htokens : (tokens onOneLine).map Token.reading =
      (tokens withComments).map Token.reading := by
    decide +kernel
  obtain ⟨herrors, houtput, hplace, hplace'⟩ : (parse onOneLine).2 = [] ∧
      (Session.run {} (parse onOneLine).1 Session.start).2.output = "[7, a]\n" ∧
      (Session.run {} (parse onOneLine).1 Session.start).1.place? = some ⟨1, 39⟩ ∧
      (Session.run {} (parse withComments).1 Session.start).1.place? = some ⟨4, 11⟩ := by
    decide +kernel
  have hp : parse? onOneLine = .ok (parse onOneLine).1 := parse?_eq_ok.mpr (Prod.ext rfl herrors)
  obtain ⟨p', hp', hruns⟩ := (layout_independent htokens).2 _ hp
  obtain rfl : (parse withComments).1 = p' := congrArg Prod.fst (parse?_eq_ok.mp hp')
  exact ⟨htokens, _, _, hp, hp', (hruns {}).2.1, houtput, hplace, hplace'⟩

end Vorn
