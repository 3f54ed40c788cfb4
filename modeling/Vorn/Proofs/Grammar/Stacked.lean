import Vorn.Proofs.Grammar.Accepted
import Vorn.Proofs.Grammar.Lookahead
import Vorn.Proofs.Grammar.Positions
import Vorn.Proofs.Grammar.Provenance
import Vorn.Proofs.Token.Stacked

/-!
# Programs below one another

Source texts that are accepted, each with a semicolon as its last token, can be put below one
another: the tree of the whole text holds the statements of the texts in their order, each at its
place further down (`parse_stack`). The names that are known before a text do not matter here; they
decide on the errors that are reported, not on the tree.

* `Parse.programStatements_append`: the statements at the front of a stream, if these tokens by
  themselves are read without errors;
* `Parse.programStatements_stack`: texts in a row, by induction on their number.
-/

namespace Vorn

theorem Stream.left_eq_cons {s : Stream} {t : Token} {ts : List Token} :
    s.left = t :: ts ↔ s.current = t ∧ s.rest = ts := by
  simp [Stream.left]

theorem Stream.left_advance {s : Stream} (h : s.rest ≠ []) : s.advance.left = s.rest := by
  obtain ⟨current, rest⟩ := s
  cases rest with
  | nil => exact (h rfl).elim
  | cons t rest => rfl

/-- Tokens of a text before its end: none of them marks the end, and the last is a semicolon. -/
structure Terminated (ts : List Token) : Prop where
  inner : ∀ t ∈ ts, t.kind ≠ .eof
  last : ∀ t ∈ ts.getLast?, t.kind = .semicolon

theorem Terminated.of_suffix {ts ts' : List Token} (h : Terminated ts) (hsuffix : ts' <:+ ts) :
    Terminated ts' := by
  obtain ⟨front, rfl⟩ := hsuffix
  refine ⟨fun t ht => h.inner t (List.mem_append_right front ht), fun t ht => h.last t ?_⟩
  rw [List.getLast?_append, Option.mem_def.mp ht]
  rfl

namespace Parse

open Reader (FollowsAt)

variable {e : Token} {n : Nat} {own : Frame} {s s₁ : ReaderState}

/-- At the end the loop over statements stops. -/
theorem programStatements_eof (hk : s.stream.current.kind = .eof) :
    programStatements (n + 1) own s = .ok [] s := by
  rw [programStatements, Reader.run_bind_ok (Reader.run_currentIs s .eof), if_pos (by simpa)]
  rfl

/-- One round of the loop over statements. -/
theorem programStatements_round {o : Option (Option Stmt)} (hk : s.stream.current.kind ≠ .eof)
    (hrun : Reader.attempt (statement n [own]) s = .ok o s₁) :
    ∃ own' more, programStatements (n + 1) own s =
      ((o.join.toList ++ ·) <$> programStatements n own')
        ⟨s₁.stream.advance, more ++ s₁.errors⟩ := by
  rw [programStatements, Reader.run_bind_ok (Reader.run_currentIs s .eof), if_neg (by simpa),
    Reader.run_bind_ok hrun]
  rcases o with _ | _ | x
  · refine ⟨own, [], (Reader.run_bind_ok (Reader.run_advance s₁)).trans ?_⟩
    exact (congrFun (id_map (programStatements n own)) _).symm
  · refine ⟨own, [], (Reader.run_bind_ok (Reader.run_advance s₁)).trans ?_⟩
    exact (congrFun (id_map (programStatements n own)) _).symm
  · refine ⟨own.add x, (Frames.check own [] x).reverse, ?_⟩
    rw [Reader.run_map]
    refine (Reader.run_bind_ok (Reader.run_report s₁ _)).trans ?_
    rw [Reader.run_bind_ok (Reader.run_advance _), Reader.run_bind]
    rfl

/-- The first round of a loop that ends. If nothing is reported, then neither in the round nor
behind it. -/
theorem programStatements_succ_ok {ss : List Stmt} (hk : s.stream.current.kind ≠ .eof)
    (hrun : programStatements (n + 1) own s = .ok ss s₁) (hclean : s₁.errors = s.errors) :
    ∃ o s₂ own' s₃ ss', Reader.attempt (statement n [own]) s = .ok o s₂ ∧
      s₂.errors = s.errors ∧ s₃.stream = s₂.stream.advance ∧
      programStatements n own' s₃ = .ok ss' s₁ ∧ s₁.errors = s₃.errors ∧
      ss = o.join.toList ++ ss' := by
  have hone : FollowsAt s.stream.current [] True s (Reader.attempt (statement n [own]))
      (Reader.attempt (statement n [own])) _ :=
    .attempt ((locals (Nat.le_refl n)).statement [own] [own] s)
  unfold FollowsAt at hone
  cases hstmt : Reader.attempt (statement n [own]) s with
  | error failure s₂ =>
    rw [programStatements, Reader.run_bind_ok (Reader.run_currentIs s .eof),
      if_neg (by simpa using hk), Reader.run_bind, hstmt] at hrun
    cases hrun
  | ok o s₂ =>
    rw [hstmt] at hone
    obtain ⟨own', more, hround⟩ := programStatements_round hk hstmt
    rw [hround, Reader.run_map] at hrun
    have hrest : FollowsAt s.stream.current [] True ⟨s₂.stream.advance, more ++ s₂.errors⟩
        (programStatements n own') (programStatements n own') _ :=
      follows_programStatements (Nat.le_refl n) own' own' _
    unfold FollowsAt at hrest
    cases hbehind : programStatements n own' ⟨s₂.stream.advance, more ++ s₂.errors⟩ with
    | error failure s₃ =>
      rw [hbehind] at hrun
      cases hrun
    | ok ss' s₃ =>
      rw [hbehind] at hrun hrest
      injection hrun with hss hs₃
      subst hss hs₃
      have hnext : s₂.Later ⟨s₂.stream.advance, more ++ s₂.errors⟩ :=
        ⟨s₂.stream.advance_left_suffix, List.suffix_append _ _⟩
      obtain ⟨hclean₂, hclean₃⟩ := hone.1.clean (hnext.trans hrest.1) hclean
      exact ⟨o, s₂, own', _, ss', rfl, hclean₂, rfl, hbehind,
        (hnext.clean hrest.1 hclean₃).2, rfl⟩

/-- A statement in front of other tokens than before. It ends among the tokens of the text. -/
theorem attempt_statement_swapped {n' : Nat} {s' : ReaderState} {ts new : List Token}
    {o : Option (Option Stmt)} (own' : Frame) (hn : n ≤ n') (hts : Terminated ts) (hne : ts ≠ [])
    (he : e.kind = .eof) (hs : s.stream.left = ts ++ [e]) (hs' : s'.stream.left = ts ++ new)
    (hrun : Reader.attempt (statement n [own]) s = .ok o s₁) (hclean : s₁.errors = s.errors) :
    ∃ c ts' s₁', c :: ts' <:+ ts ∧ s₁.stream.left = c :: (ts' ++ [e]) ∧
      s₁'.stream.left = c :: (ts' ++ new) ∧
      Reader.attempt (statement n' [own']) s' = .ok o s₁' := by
  have hone : FollowsAt e new True s (Reader.attempt (statement n [own]))
      (Reader.attempt (statement n' [own'])) _ :=
    .attempt ((locals hn).statement [own] [own'] s)
  unfold FollowsAt at hone
  rw [hrun] at hone
  obtain ⟨hlater, hone⟩ := hone
  obtain ⟨⟨x, -, hk⟩, hsame⟩ := hone trivial hclean
  -- the run does not go past the last semicolon
  have hsuffix := hlater.left
  rw [hs, List.suffix_concat_iff] at hsuffix
  obtain hnil | ⟨left, hleft, hsuffix⟩ := hsuffix
  · cases hnil
  cases left with
  | nil =>
    rw [(Stream.left_eq_cons.mp hleft).1] at hk
    exact (hk he).elim
  | cons c ts' =>
    rw [List.cons_append] at hleft
    obtain ⟨hcurrent₁, hrest₁⟩ := Stream.left_eq_cons.mp hleft
    have hclear : s₁.stream.Clear := by
      cases ts' with
      | nil =>
        have hsemi := (hts.of_suffix hsuffix).last c rfl
        exact .inr ⟨by simp [hrest₁], by rw [hcurrent₁, hsemi]⟩
      | cons d ts' => exact .inl (by simp [hrest₁])
    have hswapped : s.stream.Swapped e new s'.stream := by
      obtain ⟨t, ts, rfl⟩ := List.exists_cons_of_ne_nil hne
      obtain ⟨hcurrent, hrest⟩ := Stream.left_eq_cons.mp hs
      obtain ⟨hcurrent', hrest'⟩ := Stream.left_eq_cons.mp hs'
      exact ⟨hcurrent'.trans hcurrent.symm, ts, hrest, hrest'⟩
    obtain ⟨s₁', hrun', hs₁'⟩ := hsame hclear s' hswapped
    obtain ⟨ahead, hahead, hrest₁'⟩ := hs₁'.rest
    rw [hrest₁, List.append_cancel_right_eq] at hahead
    subst hahead
    exact ⟨c, ts', s₁', hsuffix, hleft,
      Stream.left_eq_cons.mpr ⟨hs₁'.current.trans hcurrent₁, hrest₁'⟩, hrun'⟩

/-- **The statements at the front of a stream.** If the tokens `ts` before the end `e` are read
without errors, then in front of other tokens they give the same statements, and what follows is
read from there. -/
theorem programStatements_append {u : Token} {us ts : List Token} {ss : List Stmt} {n' : Nat}
    (own' : Frame) (s' : ReaderState) (hn : n ≤ n') (hts : Terminated ts)
    (he : e.kind = .eof) (hs : s.stream.left = ts ++ [e])
    (hs' : s'.stream.left = ts ++ (u :: us))
    (hrun : programStatements n own s = .ok ss s₁) (hclean : s₁.errors = s.errors) :
    ∃ m own'' s'', n' - ts.length ≤ m ∧ s''.stream.left = u :: us ∧
      programStatements n' own' s' = ((ss ++ ·) <$> programStatements m own'') s'' := by
  induction n generalizing n' own own' s s' ts ss with
  | zero => cases hrun
  | succ n ih =>
    obtain ⟨n', rfl⟩ : ∃ k, n' = k + 1 := ⟨n' - 1, by omega⟩
    have hn := Nat.le_of_succ_le_succ hn
    cases ts with
    | nil =>
      obtain ⟨hcurrent, -⟩ := Stream.left_eq_cons.mp hs
      rw [programStatements_eof (hcurrent ▸ he)] at hrun
      cases hrun
      exact ⟨n' + 1, own', s', Nat.sub_le _ _, hs', (congrFun (id_map _) _).symm⟩
    | cons t ts =>
      have hk := hts.inner t List.mem_cons_self
      obtain ⟨hcurrent, -⟩ := Stream.left_eq_cons.mp hs
      obtain ⟨hcurrent', -⟩ := Stream.left_eq_cons.mp hs'
      obtain ⟨o, s₂, own₂, s₃, ss', hstmt, hclean₂, hs₃, hrest, hclean₃, rfl⟩ :=
        programStatements_succ_ok (hcurrent ▸ hk) hrun hclean
      obtain ⟨c, ts', s₂', hsuffix, hleft, hleft', hstmt'⟩ := attempt_statement_swapped
        own' hn hts (List.cons_ne_nil t ts) he hs hs' hstmt hclean₂
      obtain ⟨own₂', more, hround⟩ := programStatements_round (hcurrent' ▸ hk) hstmt'
      have hrest₂ := (Stream.left_eq_cons.mp hleft).2
      have hrest₂' := (Stream.left_eq_cons.mp hleft').2
      obtain ⟨m, own'', s'', hm, hs'', heq⟩ := ih own₂'
        ⟨s₂'.stream.advance, more ++ s₂'.errors⟩ hn
        (hts.of_suffix ((List.suffix_cons c ts').trans hsuffix))
        (by rw [hs₃, Stream.left_advance (by simp [hrest₂]), hrest₂])
        (by rw [Stream.left_advance (by simp [hrest₂']), hrest₂'])
        hrest hclean₃
      have hlength := hsuffix.length_le
      simp only [List.length_cons] at hlength ⊢
      refine ⟨m, own'', s'', by omega, hs'', ?_⟩
      rw [hround, Reader.run_map, heq, Reader.run_map, Reader.run_map]
      cases programStatements m own'' s'' with
      | ok rest s => simp
      | error failure s => rfl

end Parse

/-! ## Source texts -/

theorem Terminated.move {ts : List Token} (h : Terminated ts) (f : Pos → Pos) :
    Terminated (ts.map (Token.move f)) := by
  constructor
  · intro t ht
    obtain ⟨u, hu, rfl⟩ := List.mem_map.mp ht
    exact h.inner u hu
  · intro t ht
    rw [List.getLast?_map] at ht
    obtain ⟨u, hu, rfl⟩ := Option.map_eq_some_iff.mp (Option.mem_def.mp ht)
    exact h.last u hu

theorem exists_tokens_eq_cons (source : String) : ∃ t ts, tokens source = t :: ts :=
  List.exists_cons_of_ne_nil (tokens_ne_nil source)

theorem EndsWithSemicolon.tokens_eq {source : String} (h : EndsWithSemicolon source) :
    ∃ ts e, tokens source = ts ++ [e] ∧ e.kind = .eof ∧ Terminated ts := by
  obtain ⟨front, semi, last, htokens, hsemi⟩ := h
  obtain ⟨ts, e, hsplit, he, hinner⟩ := exists_tokens_eq_concat_eof source
  refine ⟨ts, e, hsplit, he, hinner, fun t ht => ?_⟩
  have hts : ts = front ++ [semi] := by
    have heq : ts ++ [e] = (front ++ [semi]) ++ [last] := by
      rw [← hsplit, htokens, List.append_assoc]
      rfl
    exact (List.append_inj' heq rfl).1
  rw [hts, List.getLast?_concat] at ht
  cases ht
  exact hsemi

/-- The loop over the statements of an accepted text whose tokens stand elsewhere. -/
theorem programStatements_of_accepted {source : String} {p : Program} (f : Pos → Pos)
    (h : parse? source = .ok p) :
    ∃ s s₁ : ReaderState, s.stream.left = (tokens source).map (Token.move f) ∧
      Parse.programStatements (Parse.fuel (tokens source)) {} s =
        .ok (Stmt.markAll (.moved f) p.statements) s₁ ∧ s₁.errors = s.errors := by
  obtain ⟨t, ts, hts⟩ := exists_tokens_eq_cons source
  have hreads := (parse_reads source).1
  rw [parse?_eq_ok.mp h, hts, Parse.run, Stream.ofTokens] at hreads
  have hmoves := Parse.moves_programStatements (f := f) (Nat.le_refl (Parse.fuel (t :: ts))) {}
    { stream := ⟨t, ts⟩ }
  rw [hts]
  cases hrun : Parse.programStatements (Parse.fuel (t :: ts)) {} { stream := ⟨t, ts⟩ } with
  | error failure s => simp [hrun] at hreads
  | ok ss s =>
    simp only [hrun, Option.some.injEq, Prod.mk.injEq, List.reverse_eq_nil_iff] at hreads
    obtain ⟨rfl, herrors⟩ := hreads
    rw [hrun] at hmoves
    obtain ⟨s', hout⟩ | hmoved := hmoves
    · cases hout
    · refine ⟨_, _, rfl, hmoved, ?_⟩
      simp [ReaderState.move, herrors]

/-- The statements of texts below one another, the first of them `k` lines further down. -/
def stacked : Nat → List String → List Stmt
  | _, [] => []
  | k, source :: sources =>
    Stmt.markAll (.moved (Pos.down k)) (parse source).1.statements ++
      stacked (k + lineCount source) sources

theorem Pos.down_down (j k : Nat) (p : Pos) : (p.down j).down k = p.down (k + j) := by
  simp only [Pos.down, Pos.mk.injEq, and_true]
  omega

theorem Token.move_down_down (j k : Nat) (ts : List Token) :
    (ts.map (Token.move (Pos.down j))).map (Token.move (Pos.down k)) =
      ts.map (Token.move (Pos.down (k + j))) := by
  rw [List.map_map]
  refine List.map_congr_left fun t _ => ?_
  simp only [Function.comp_apply, Token.move, Pos.down_down]

namespace Parse

/-- Texts below one another, read from their first token on. -/
theorem programStatements_stack {sources : List String} (hne : sources ≠ [])
    (haccepted : ∀ source ∈ sources, ∃ p, parse? source = .ok p)
    (hends : ∀ source ∈ sources, EndsWithSemicolon source) {k n : Nat} (own : Frame)
    (s : ReaderState) (hs : s.stream.left = (tokens (stack sources)).map (Token.move (Pos.down k)))
    (hn : fuel (tokens (stack sources)) ≤ n) :
    ∃ s₁, programStatements n own s = .ok (stacked k sources) s₁ := by
  induction sources generalizing k n own s with
  | nil => exact (hne rfl).elim
  | cons source sources ih =>
    obtain ⟨p, hp⟩ := haccepted source List.mem_cons_self
    obtain ⟨ts, e, htokens, he, hts⟩ := (hends source List.mem_cons_self).tokens_eq
    obtain ⟨s₀, s₁, hs₀, hrun, hclean⟩ := programStatements_of_accepted (Pos.down k) hp
    rw [htokens, List.map_append, List.map_singleton] at hs₀
    have hmoved : (e.move (Pos.down k)).kind = .eof := he
    have hstatements : (parse source).1 = p := by rw [parse?_eq_ok.mp hp]
    rw [stacked, hstatements]
    unfold fuel at hn hrun
    cases sources with
    | nil =>
      have hstack : stack [source] = source := by simp [stack]
      rw [hstack] at hs hn
      rw [htokens, List.map_append, List.map_singleton] at hs
      obtain ⟨m, own', s', hm, hs', heq⟩ := programStatements_append own s hn (hts.move _) hmoved
        hs₀ hs hrun hclean
      rw [htokens] at hn
      obtain ⟨m, rfl⟩ : ∃ j, m = j + 1 := ⟨m - 1, by simp at hm hn; omega⟩
      rw [heq, Reader.run_map, programStatements_eof (by rwa [(Stream.left_eq_cons.mp hs').1])]
      exact ⟨s', rfl⟩
    | cons next sources =>
      rw [tokens_stack (hends source List.mem_cons_self), htokens, List.dropLast_concat] at hs hn
      rw [List.map_append, Token.move_down_down] at hs
      obtain ⟨u, us, hus⟩ := exists_tokens_eq_cons (stack (next :: sources))
      have hfuel : 16 * ((tokens source).length + 1) ≤ n := by
        simp [htokens, hus] at hn ⊢
        omega
      obtain ⟨m, own', s', hm, hs', heq⟩ := programStatements_append own s hfuel (hts.move _) hmoved
        hs₀ (hs.trans (by rw [hus]; rfl)) hrun hclean
      have hrest : fuel (tokens (stack (next :: sources))) ≤ m := by
        simp at hm hn
        unfold fuel
        omega
      obtain ⟨s₂, hrest⟩ := ih (by simp) (fun t ht => haccepted t (by simp [ht]))
        (fun t ht => hends t (by simp [ht])) own' s' (hs'.trans (by rw [hus]; rfl)) hrest
      rw [heq, Reader.run_map, hrest]
      exact ⟨s₂, rfl⟩

end Parse

/-- **Texts below one another** have the statements of all of them in their order, each statement at
its place further down. -/
theorem parse_stack {sources : List String} (hne : sources ≠ [])
    (haccepted : ∀ source ∈ sources, ∃ p, parse? source = .ok p)
    (hends : ∀ source ∈ sources, EndsWithSemicolon source) :
    (parse (stack sources)).1.statements = stacked 0 sources := by
  have hstart : (Stream.ofTokens (tokens (stack sources))).left =
      (tokens (stack sources)).map (Token.move (Pos.down 0)) := by
    obtain ⟨t, ts, hts⟩ := exists_tokens_eq_cons (stack sources)
    rw [hts]
    exact (List.map_id (t :: ts)).symm
  obtain ⟨s₁, hrun⟩ := Parse.programStatements_stack hne haccepted hends {}
    { stream := .ofTokens (tokens (stack sources)) } hstart (Nat.le_refl _)
  rw [parse, Parse.run, hrun]
  rfl

end Vorn
