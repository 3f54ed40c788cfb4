import Vorn.Proofs.Eval.Spec
import Vorn.Proofs.FirstFault
import Vorn.Proofs.Layout
import Vorn.Proofs.Relocation.History

/-!
# Errors are reported at tokens

Every place in the tree of a text is the place of one of its tokens. Every fault of a session is
reported at a token of a text that ran, or where the shared values stand, or it is one of the faults
that are reported at a built-in function; and only built-in functions stand at no place
(`errors_at_tokens`).

No evaluation makes up a place. So a relocation that leaves the places of the tokens alone and sends
all others elsewhere (`Relocation.keeping`) changes neither the tree of a text nor the store that
the texts of a session leave behind: both stay where they are (`fixes_places_parse`,
`Session.store_after`). The moved run is then the run itself, and what it meets is where it was
moved to: the values at its moments and its fault (`Eval.stays_programHistory`,
`Eval.stays_ended`), unless it is one at a built-in function, which no relocation moves.
-/

namespace Vorn

/-! ## Places that stay -/

/-- Keeps the places of the list and sends every other one to another line. -/
def Pos.keeping (ps : List Pos) (p : Pos) : Pos := if p ∈ ps then p else ⟨p.line + 1, p.column⟩

theorem Pos.keeping_eq_self_iff {ps : List Pos} {p : Pos} : p.keeping ps = p ↔ p ∈ ps := by
  unfold keeping
  split
  · simp_all
  · rename_i h
    refine ⟨fun heq => ?_, fun hp => absurd hp h⟩
    have hline := congrArg Pos.line heq
    simp at hline

/-- The relocation that keeps the places of the list. -/
def Relocation.keeping (ps : List Pos) (h : .shared ∈ ps) : Relocation where
  place := Pos.keeping ps
  shared := Pos.keeping_eq_self_iff.mpr h

/-- The places of the tokens of a text. -/
def tokenPlaces (source : String) : List Pos := (tokens source).map (·.pos)

/-- **A tree stands at tokens.** Where the tokens stay, so does the tree. -/
theorem fixes_places_parse {f : Pos → Pos} {source : String} (h : Fixes f (tokenPlaces source)) :
    Fixes f (parse source).1.places := by
  have htokens : (tokens source).map (Token.move f) = tokens source := by
    refine (List.map_congr_left fun t ht => ?_).trans (List.map_id _)
    have hpos : f t.pos = t.pos := h _ (List.mem_map_of_mem ht)
    rw [Token.move, hpos]
    rfl
  have hmoved := run_move_tokens f source (Nat.le_refl _)
  rw [htokens, (parse_reads source).1, Option.some.injEq] at hmoved
  exact (Program.mark_moved_eq_self f _).mp (congrArg Prod.fst hmoved).symm

/-! ## Runs that stay -/

variable {f : Relocation} {settings : Settings}

/-- A fault that stays is at a place that stays, or at a built-in function. -/
theorem Stop.Moved.stays {x : Fault} {stop : Stop} (h : (Stop.fault x).Moved f stop)
    (hstop : stop = .fault x) : f.place x.pos = x.pos ∨ ∃ b, x.ReportedAt (.builtin b) := by
  cases h with
  | moved => exact .inl (congrArg Fault.pos (Stop.fault.inj hstop))
  | @builtin _ b h => exact .inr ⟨b, h⟩

/-- Of an ending that stays, the store stays, and so does a fault unless it is at a built-in
function. -/
theorem Ending.Moved.stays {α : Type} {g : α → α} {ending ending' : Ending α}
    (h : ending.Moved f g ending') (heq : ending' = ending) :
    ending.state.store.move f = ending.state.store ∧
      ∀ x s, ending = .error (.fault x) s →
        f.place x.pos = x.pos ∨ ∃ b, x.ReportedAt (.builtin b) := by
  cases h with
  | ok a s =>
    injection heq with _ hs
    exact ⟨congrArg State.store hs, fun _ _ h => nomatch h⟩
  | error s h =>
    injection heq with hstop hs
    refine ⟨congrArg State.store hs, fun x s' hend => ?_⟩
    cases hend
    exact h.stays hstop

/-- Of a moment that stays, all values stay. -/
theorem Moment.Moved.stays {m : Moment} (h : m.Moved f m) : ∀ v ∈ m.values, v.move f = v :=
  List.map_inj_left.mp (h.values.symm.trans (List.map_id _).symm)

/-- A value that stays is at a place that stays, or a built-in function. -/
theorem Value.place_eq_of_move_eq {v : Value} (h : v.move f = v) :
    f.place v.pos = v.pos ∨ v.ty = .builtin := by
  by_cases hty : v.ty = .builtin
  · exact .inr hty
  · exact .inl ((Value.pos_move f hty).symm.trans (congrArg Value.pos h))

namespace Eval

variable {p : Program} {s : State}

/-- The statements of a program that stays end in an ending that stays. -/
theorem stays_ended (hp : Fixes f.place p.places) (hs : s.store.move f = s.store) :
    (ended settings p s).state.store.move f = (ended settings p s).state.store ∧
      ∀ x s', ended settings p s = .error (.fault x) s' →
        f.place x.pos = x.pos ∨ ∃ b, x.ReportedAt (.builtin b) := by
  refine (moved_ended (f := f) settings p s).stays ?_
  rw [(Program.mark_moved_eq_self f.place p).mpr hp, State.move, hs]

/-- The moments of a program that stays are moments that stay. -/
theorem stays_programHistory (hp : Fixes f.place p.places) (hs : s.store.move f = s.store) :
    ∀ m ∈ programHistory settings p s, m.Moved f m := by
  have hmoved := moved_programHistory (f := f) settings p s
  rw [(Program.mark_moved_eq_self f.place p).mpr hp, State.move, hs] at hmoved
  exact List.forall₂_same.mp hmoved

/-- A fault at a moment of a program is how its statements end. -/
theorem ended_of_moment {m : Moment} {x : Fault} (hm : m ∈ programHistory settings p s)
    (hx : m.fault? = some x) : ∃ s', ended settings p s = .error (.fault x) s' := by
  obtain ⟨s', hfails⟩ := Moment.exists_failsWith hx
  exact ⟨s', (settled_programHistory settings p s).ends m hm x s' hfails⟩

end Eval

/-! ## Sessions -/

namespace Session

/-- The place is that of a token of a text that is accepted. -/
def IsTokenPlace (sources : List String) (q : Pos) : Prop :=
  ∃ source ∈ sources, (∃ p, parse? source = .ok p) ∧ ∃ t ∈ tokens source, t.pos = q

/-- The places of the tokens of the texts that are accepted, and that of the shared values. -/
def places (sources : List String) : List Pos :=
  .shared :: sources.flatMap fun source =>
    match parse? source with
    | .error _ => []
    | .ok _ => tokenPlaces source

theorem mem_places_iff {sources : List String} {q : Pos} :
    q ∈ places sources ↔ q = .shared ∨ IsTokenPlace sources q := by
  simp only [places, List.mem_cons, List.mem_flatMap]
  refine or_congr_right (exists_congr fun source => and_congr_right fun _ => ?_)
  cases parse? source with
  | error errors => simp
  | ok p => simp [tokenPlaces]

/-- The tree of a text that is accepted stays where the places of a session with it stay. -/
theorem fixes_of_mem {sources : List String} {source : String} {p : Program}
    (hps : Fixes f.place (places sources)) (hsource : source ∈ sources)
    (hparse : parse? source = .ok p) : Fixes f.place p.places := by
  have hp : (parse source).1 = p := by rw [parse?_eq_ok.mp hparse]
  rw [← hp]
  refine fixes_places_parse fun q hq => hps q (mem_places_iff.mpr (.inr ?_))
  exact ⟨source, hsource, ⟨p, hparse⟩, List.mem_map.mp hq⟩

/-- Nothing in the store of a new session has a place. -/
theorem store_start : start.store.move f = start.store := by
  simp [start, Store.move, Scopes.map, Scopes.initial, Scope.map]

theorem store_step {sources : List String} {source : String} {s : State}
    (hps : Fixes f.place (places sources)) (hsource : source ∈ sources)
    (hs : s.store.move f = s.store) :
    (step settings source s).2.store.move f = (step settings source s).2.store := by
  unfold step
  cases hparse : parse? source with
  | error errors => exact hs
  | ok p =>
    dsimp only
    rw [(Eval.run_of_ended settings p s).1]
    exact (Eval.stays_ended (fixes_of_mem hps hsource hparse) hs).1

/-- **The store stays where it is**, whatever texts ran. -/
theorem store_after {sources rest : List String} {s : State}
    (hps : Fixes f.place (places sources)) (hrest : ∀ source ∈ rest, source ∈ sources)
    (hs : s.store.move f = s.store) :
    (after settings rest s).store.move f = (after settings rest s).store := by
  induction rest generalizing s with
  | nil => exact hs
  | cons source rest ih =>
    obtain ⟨hsource, hrest⟩ := List.forall_mem_cons.mp hrest
    exact ih hrest (store_step hps hsource hs)

end Session

/-- No token stands where built-in functions do. -/
theorem pos_ne_unknown_of_mem_tokens {source : String} {t : Token} (ht : t ∈ tokens source) :
    t.pos ≠ .unknown := by
  intro h
  have hcolumn := two_le_column_of_mem_tokens t ht
  rw [h] at hcolumn
  exact absurd hcolumn (by decide)

/-! ## Main result -/

/-- **Every error is reported at a token.** The tree of a text stands at tokens of the text. A name
that a node declares, assigns or takes as a parameter has no place of its own in the tree; it is the
literal of an identifier of the text.

In a session, whatever texts ran before, the message of a fault of an accepted text, be it in the
end or at a moment of the run, starts with its place. This is the place of a token of one of the
accepted texts, that of the shared values, or no place at all; the faults without a place are those
that are reported at a built-in function. And of all values at the moments of the run, none but
built-in functions have any other place. -/
theorem errors_at_tokens :
    (∀ source, Made (tokens source) (parse source).1.nodes ∧
      ∀ q ∈ (parse source).1.places, ∃ t ∈ tokens source, t.pos = q) ∧
    ∀ settings before source p, parse? source = .ok p →
      (∀ x, ((Session.run settings p (Session.after settings before Session.start)).1 = .fault x ∨
          ∃ m ∈ Eval.programHistory settings p (Session.after settings before Session.start),
            m.fault? = some x) →
        x.message = x.pos.text ++ " " ++ x.cause.text ∧
        (Session.IsTokenPlace (before ++ [source]) x.pos ∨ x.pos = .shared ∨ x.pos = .unknown) ∧
        (x.pos = .unknown → ∃ b, x.ReportedAt (.builtin b))) ∧
      ∀ m ∈ Eval.programHistory settings p (Session.after settings before Session.start),
        ∀ v ∈ m.values, Session.IsTokenPlace (before ++ [source]) v.pos ∨ v.pos = .shared ∨
          v.ty = .builtin := by
  refine ⟨fun source => ⟨(parse_reads source).2, fun q hq => ?_⟩, ?_⟩
  · have hfixes : Fixes (Pos.keeping (tokenPlaces source)) (parse source).1.places :=
      fixes_places_parse fun q hq => Pos.keeping_eq_self_iff.mpr hq
    exact List.mem_map.mp (Pos.keeping_eq_self_iff.mp (hfixes q hq))
  intro settings before source p hparse
  let f := Relocation.keeping (Session.places (before ++ [source])) List.mem_cons_self
  have hps : Fixes f.place (Session.places (before ++ [source])) :=
    fun q hq => Pos.keeping_eq_self_iff.mpr hq
  have hplace : ∀ q, f.place q = q → q = .shared ∨ Session.IsTokenPlace (before ++ [source]) q :=
    fun q hq => Session.mem_places_iff.mp (Pos.keeping_eq_self_iff.mp hq)
  have hs : Store.move f (Session.after settings before Session.start).store =
      (Session.after settings before Session.start).store :=
    Session.store_after hps (fun _ h => List.mem_append_left _ h) Session.store_start
  have hp := Session.fixes_of_mem hps List.mem_concat_self hparse
  refine ⟨fun x hx => ?_, fun m hm v hv => ?_⟩
  · obtain ⟨s', hended⟩ : ∃ s', Eval.ended settings p _ = .error (.fault x) s' :=
      hx.elim Eval.ended_of_fault fun ⟨m, hm, hmx⟩ => Eval.ended_of_moment hm hmx
    rcases (Eval.stays_ended hp hs).2 x s' hended with hfixed | ⟨b, hb⟩
    · refine ⟨rfl, (hplace _ hfixed).symm.imp_right .inl, fun hunknown => ?_⟩
      rcases hplace _ hfixed with hshared | ⟨source', -, -, t, ht, hpos⟩
      · rw [hunknown] at hshared
        cases hshared
      · exact absurd (hpos.trans hunknown) (pos_ne_unknown_of_mem_tokens ht)
    · exact ⟨rfl, .inr (.inr hb.pos_eq), fun _ => ⟨b, hb⟩⟩
  · have hstays := (Eval.stays_programHistory hp hs m hm).stays v hv
    rcases Value.place_eq_of_move_eq hstays with hfixed | hbuiltin
    · exact (hplace _ hfixed).symm.imp_right .inl
    · exact .inr (.inr hbuiltin)

/-- A function that divides by zero. -/
def divides : String := "let f = func(x) \x7b x % 0 \x7d;"

theorem Outcome.exists_fault_of_place? {outcome : Outcome} {q : Pos} (h : outcome.place? = some q) :
    ∃ x, outcome = .fault x ∧ x.pos = q := by
  cases outcome with
  | fault x => exact ⟨x, rfl, Option.some.inj h⟩
  | value | cut => cases h

/-- The error of a call is reported in the text before, where the function stands; a negated
built-in function has no place. -/
theorem errors_at_tokens_divides :
    (∃ p x, parse? "f(7)" = .ok p ∧
      (Session.run {} p (Session.after {} [divides] Session.start)).1 = .fault x ∧
      x.pos = ⟨1, 22⟩ ∧ Session.IsTokenPlace [divides, "f(7)"] x.pos) ∧
    ∃ p x b, parse? "-len" = .ok p ∧ (Session.run {} p Session.start).1 = .fault x ∧
      x.pos = .unknown ∧ x.ReportedAt (.builtin b) := by
  obtain ⟨hcall, hnegated, hplace, hplace'⟩ : (parse "f(7)").2 = [] ∧ (parse "-len").2 = [] ∧
      (Session.run {} (parse "f(7)").1 (Session.after {} [divides] Session.start)).1.place? =
        some ⟨1, 22⟩ ∧
      (Session.run {} (parse "-len").1 Session.start).1.place? = some .unknown := by
    decide +kernel
  have hp : parse? "f(7)" = .ok (parse "f(7)").1 := parse?_eq_ok.mpr (Prod.ext rfl hcall)
  have hp' : parse? "-len" = .ok (parse "-len").1 := parse?_eq_ok.mpr (Prod.ext rfl hnegated)
  obtain ⟨x, hx, hpos⟩ := Outcome.exists_fault_of_place? hplace
  obtain ⟨x', hx', hpos'⟩ := Outcome.exists_fault_of_place? hplace'
  have hat := ((errors_at_tokens.2 {} [divides] _ _ hp).1 x (.inl hx)).2.1
  obtain ⟨b, hb⟩ := ((errors_at_tokens.2 {} [] _ _ hp').1 x' (.inl hx')).2.2 hpos'
  refine ⟨⟨_, x, hp, hx, hpos, ?_⟩, _, x', b, hp', hx', hpos', hb⟩
  rw [hpos] at hat ⊢
  rcases hat with htoken | hshared | hunknown
  · exact htoken
  · cases hshared
  · cases hunknown

end Vorn
