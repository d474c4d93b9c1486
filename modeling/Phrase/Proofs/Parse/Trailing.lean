import Phrase.Proofs.Parse.Skipping

/-!
# Separators at the end

Two lists pass separators: one wants an item behind each of them, the other one lets the last
separator end the list.  Both are told by what their loop takes up
(`Environment.settles_separated_iff`).  Where an item that has been parsed would also have applied,
the second list matches whatever the first one does, and in the same way
(`Environment.listTrailing_of_listSep`).
-/

namespace Phrase

/-! ## Rules that match only where they apply -/

/-- Rules whose parse matches only where they apply.  A choice is parsed by trying it; the others
are decided by a rule inside of them, in the end by a token, a position or a symbol.  The
placeholder `never` matches without applying, and recovery lets a rule match that does not apply;
either may stand where it does not decide. -/
inductive Grammar.Decisive (g : Grammar) : Rule → Prop
  | token (t : Token) : Decisive g (.token t)
  | capture (t : Token) : Decisive g (.capture t)
  | integer (type : IntegerType) (radix : Radix) : Decisive g (.integer type radix)
  | position : Decisive g .position
  | symbol (table : Nat) : Decisive g (.symbol table)
  | symbolOf (table : Nat) (t : Token) : Decisive g (.symbolOf table t)
  | symbolIdentifier (table : Nat) (leading trailing : CharClass) :
      Decisive g (.symbolIdentifier table leading trailing)
  | choice (first second : Rule) : Decisive g (.choice first second)
  | branch {condition : Rule} (rest : Rule) :
      Decisive g condition → Decisive g (.branch condition rest)
  | list {item : Rule} : Decisive g item → Decisive g (.list item)
  | noWhitespace {r : Rule} : Decisive g r → Decisive g (.noWhitespace r)
  | production {n : Nat} : Decisive g (g.production n).rule → Decisive g (.production n)

namespace Environment

open Parse

variable {env : Environment} {r item separator : Rule} {scope : Scope} {p q n : Nat}
  {c d : Container} {es : List Event}

section
variable {calls : Calls} {t : Token} {outputs : Outputs} {k : Nat → Parse Outputs}

/-- Behind a token there is a result only if the token matches. -/
theorem matchToken_of_expectToken
    (h : (env.expectToken calls t scope >>= k) p = .ok ⟨some outputs, q, es⟩) :
    ∃ stop, env.matchToken calls t p = .ok (.ok stop) ∧
      k stop p = .ok ⟨some outputs, q, es⟩ := by
  cases hm : env.matchToken calls t p with
  | error e =>
    have herror : env.expectToken calls t scope p = .error e := bind_of_error (look_of_error hm)
    rw [bind_of_error herror] at h
    cases h
  | ok m =>
    cases m with
    | ok stop => exact ⟨stop, rfl, (expectToken_bind k hm).symm.trans h⟩
    | error f =>
      have hreport : env.expectToken calls t scope p =
          (env.reportFailure f scope >>= fun _ => (Parse.fail : Parse Nat)) p :=
        bind_of_quiet (look_eq hm)
      have hfails : (env.reportFailure f scope >>= fun _ => (Parse.fail : Parse Nat)).LeadsTo
        fun _ => False := .behind fun _ => leadsTo_fail
      obtain ⟨_, _, _, _, hexpect, -, -⟩ := bind_some_cases h
      exact (hfails _ _ _ _ (hreport.symm.trans hexpect)).elim

end

/-- A parse that ends has some fuel to spend for its rule. -/
theorem exists_calls_of_parse {o : Outcome Outputs} (h : env.parse n r scope p = .ok o) :
    ∃ k, env.parseRule (env.calls k) r scope p = .ok o := by
  cases n with
  | zero => cases h
  | succ k => exact ⟨k, h⟩

/-- What a rule adds to an attempt of another one does not change whether that applies. -/
theorem attempt_of_part {s : Rule} {more : Nat → Commit → Commit}
    (hmap : ∀ n, env.attempt (n + 1) r p = (do return (← env.attempt n s p).map (more n)))
    (h : ∃ n commit, env.attempt n s p = .ok (some commit)) :
    ∃ n commit, env.attempt n r p = .ok (some commit) := by
  obtain ⟨n, commit, h⟩ := h
  refine ⟨n + 1, more n commit, ?_⟩
  rw [hmap, h]
  rfl

/-- Where a decisive rule has been parsed with a result, it applies. -/
theorem attempt_of_parse (h : env.grammar.Decisive r) {outputs : Outputs}
    (hparse : env.parse n r scope p = .ok ⟨some outputs, q, es⟩) :
    ∃ m commit, env.attempt m r p = .ok (some commit) := by
  induction h generalizing n scope outputs q es with
  | token t | capture t | integer type radix =>
    obtain ⟨k, hparse⟩ := exists_calls_of_parse hparse
    obtain ⟨stop, hm, -⟩ := matchToken_of_expectToken hparse
    refine ⟨k + 1, ?_⟩
    rw [attempt_succ, attemptRule, hm]
    exact ⟨_, rfl⟩
  | position => exact ⟨1, _, rfl⟩
  | symbol table =>
    obtain ⟨k, hparse⟩ := exists_calls_of_parse hparse
    refine ⟨1, ?_⟩
    rw [attempt_succ, attemptRule]
    cases hfound : env.findSymbol table (env.cursor p) with
    | some found => exact ⟨_, rfl⟩
    | none =>
      have hlook : look (fun p => .ok (env.findSymbol table (env.cursor p))) p =
        .ok ⟨some none, p, []⟩ := look_eq (congrArg Except.ok hfound)
      cases (bind_of_quiet hlook).symm.trans hparse
  | symbolOf table t =>
    obtain ⟨k, hparse⟩ := exists_calls_of_parse hparse
    obtain ⟨stop, hm, hbehind⟩ := matchToken_of_expectToken hparse
    have hbehind := (bind_of_quiet (m := Parse.position) rfl).symm.trans hbehind
    refine ⟨k + 1, ?_⟩
    rw [attempt_succ, attemptRule, hm]
    cases hfound : env.findSymbolTo table stop p with
    | error f =>
      rw [hfound] at hbehind
      cases hbehind
    | ok found =>
      rw [hfound] at hbehind
      have hbehind := (bind_of_quiet (lift_ok found p)).symm.trans hbehind
      cases found with
      | some v =>
        simp only [ok_bind, hfound]
        exact ⟨_, rfl⟩
      | none => exact (refuseSymbol_leadsTo t.kind stop (fun _ => False) _ _ _ _ hbehind).elim
  | symbolIdentifier table leading trailing =>
    obtain ⟨k, hparse⟩ := exists_calls_of_parse hparse
    have hparse := (bind_of_quiet (m := Parse.position) rfl).symm.trans hparse
    refine ⟨1, ?_⟩
    rw [attempt_succ, attemptRule]
    cases hfound : env.findKeyword table trailing p with
    | error f =>
      rw [hfound] at hparse
      cases hparse
    | ok found =>
      rw [hfound] at hparse
      have hparse := (bind_of_quiet (lift_ok found p)).symm.trans hparse
      cases found with
      | some found => exact ⟨_, rfl⟩
      | none =>
        obtain ⟨stop, -, hrefuse⟩ := matchToken_of_expectToken hparse
        exact (refuseSymbol_leadsTo .identifier stop (fun _ => False) _ _ _ _ hrefuse).elim
  | choice first second =>
    obtain ⟨k, hparse⟩ := exists_calls_of_parse hparse
    cases hattempt : env.attempt k (.choice first second) p with
    | error e => cases (bind_of_error (look_of_error hattempt)).symm.trans hparse
    | ok commit? =>
      cases commit? with
      | some commit => exact ⟨k, commit, hattempt⟩
      | none => cases (bind_of_quiet (look_eq hattempt)).symm.trans hparse
  | branch rest _ ih =>
    obtain ⟨k, hparse⟩ := exists_calls_of_parse hparse
    obtain ⟨_, _, _, _, hcondition, -, -⟩ := bind_some_cases hparse
    exact attempt_of_part (fun _ => rfl) (ih hcondition)
  | list _ ih =>
    obtain ⟨k, hparse⟩ := exists_calls_of_parse hparse
    obtain ⟨_, _, _, _, hitem, -, -⟩ := bind_some_cases hparse
    exact attempt_of_part (fun _ => rfl) (ih hitem)
  | noWhitespace _ ih =>
    obtain ⟨k, hparse⟩ := exists_calls_of_parse hparse
    obtain ⟨_, _, _, _, hrule, -, -⟩ := bind_some_cases hparse
    exact attempt_of_part (fun _ => rfl) (ih hrule)
  | @production number _ ih =>
    obtain ⟨k, hparse⟩ := exists_calls_of_parse hparse
    change inProduction _ _ _ _ p = _ at hparse
    unfold inProduction at hparse
    split at hparse
    · cases hparse
    · obtain ⟨_, _, _, _, hbody, -, -⟩ := bind_some_cases hparse
      obtain ⟨⟨result, _, _⟩, hrule, ho⟩ := between_cases hbody
      cases ho
      exact attempt_of_part (fun _ => rfl) (ih hrule)

/-- Where a decisive rule has been parsed with a result, trying it and going on ends so too. -/
theorem finishEnds_of_decisive (h : env.grammar.Decisive r) {outputs : Outputs}
    (hends : env.ParseEnds r scope p (.ok ⟨some outputs, q, es⟩)) :
    env.FinishEnds r scope p (.ok ⟨some outputs, q, es⟩) := by
  obtain ⟨-, n, hn⟩ := id hends
  obtain ⟨m, commit, hcommit⟩ := attempt_of_parse h hn
  exact (finishEnds_iff hcommit _).2 hends

/-! ## What the loops take up -/

/-- A separator applies at `p` and ends at `q`, and no item behind it, which need not be there. -/
def EndsBehind (env : Environment) (trailing : Bool) (item separator : Rule) (scope : Scope)
    (p q : Nat) (es : List Event) : Prop :=
  trailing = true ∧ ∃ passed, env.FinishEnds separator scope p (.ok ⟨some passed, q, es⟩) ∧
    ∃ n, env.attempt n item q = .ok none

/-- What the loop of a list with separators does from `p` on if it ends well: from which items to
which ones it comes, where it ends, and what it has emitted. -/
inductive Separates (env : Environment) (trailing : Bool) (item separator : Rule) (scope : Scope) :
    Nat → Container → Container → Nat → List Event → Prop where
  /-- No separator applies. -/
  | declined {p n : Nat} {c : Container} : env.attempt n separator p = .ok none →
      Separates env trailing item separator scope p c c p []
  /-- The last separator has no item behind it. -/
  | behind {p q : Nat} {c : Container} {es : List Event} :
      env.EndsBehind trailing item separator scope p q es →
      Separates env trailing item separator scope p c c q es
  /-- A separator and an item. -/
  | more {p m q r : Nat} {c d : Container} {passed outputs : Outputs} {fs gs hs : List Event} :
      env.FinishEnds separator scope p (.ok ⟨some passed, m, fs⟩) →
      env.ItemEnds trailing item scope m (.ok ⟨some outputs, q, gs⟩) →
      Separates env trailing item separator scope q (scope.value.push c outputs) d r hs →
      Separates env trailing item separator scope p c d r (fs ++ gs ++ hs)

section
variable {trailing : Bool}

theorem settles_addItem_done {outputs : Outputs} :
    ¬ Settles (fun _ => addItem scope c outputs) p (.ok ⟨some (.done d), q, es⟩) := by
  rintro ⟨-, n, hn⟩
  cases hn

/-- The loop is left behind a separator only if no item need be there. -/
theorem settles_addBehind_done_iff :
    Settles (fun n => addBehind trailing (env.calls n) item scope c) p
        (.ok ⟨some (.done d), q, es⟩) ↔
      trailing = true ∧ (∃ n, env.attempt n item p = .ok none) ∧ d = c ∧ q = p ∧ es = [] := by
  cases trailing with
  | false =>
    refine iff_of_false (fun h => ?_) (fun h => nomatch h.1)
    obtain ⟨_, _, _, _, -, hadd, -⟩ := (settles_bind_ok_iff (k := fun _ => addItem scope c)
      (grows_parse env item scope) fun _ => grows_const _).1 h
    exact settles_addItem_done hadd
  | true =>
    refine (settles_taken_some_iff (k := fun _ => addTried scope c) (f := fun _ => addItem scope c)
      (fun _ => rfl) (fun _ => grows_const _) fun _ _ => rfl).trans ?_
    constructor
    · rintro (⟨hnone, hd, hq, hes⟩ | ⟨_, _, _, _, -, hadd, -⟩)
      · exact ⟨rfl, hnone, ForInStep.done.inj hd, hq, hes⟩
      · exact absurd hadd settles_addItem_done
    · rintro ⟨-, hnone, rfl, hq, hes⟩
      exact .inl ⟨hnone, rfl, hq, hes⟩

theorem settles_separatedStep_done_iff :
    Settles (fun n => separatedStep trailing (env.calls n) item separator scope c) p
        (.ok ⟨some (.done d), q, es⟩) ↔
      d = c ∧ (((∃ n, env.attempt n separator p = .ok none) ∧ q = p ∧ es = []) ∨
        env.EndsBehind trailing item separator scope p q es) := by
  refine (settles_taken_some_iff (k := fun n => passSeparator trailing (env.calls n) item scope c)
    (f := fun n _ => addBehind trailing (env.calls n) item scope c) (fun _ => rfl)
    (fun _ => grows_addBehind env trailing item scope c) fun _ _ => rfl).trans ?_
  simp only [settles_addBehind_done_iff]
  constructor
  · rintro (⟨hnone, hd, hq, hes⟩ | ⟨passed, m, fs, _, hpass, ⟨htrailing, hitem, hd, rfl, rfl⟩, rfl⟩)
    · exact ⟨ForInStep.done.inj hd, .inl ⟨hnone, hq, hes⟩⟩
    · rw [List.append_nil]
      exact ⟨hd, .inr ⟨htrailing, passed, hpass, hitem⟩⟩
  · rintro ⟨rfl, ⟨hnone, hq, hes⟩ | ⟨htrailing, passed, hpass, hitem⟩⟩
    · exact .inl ⟨hnone, rfl, hq, hes⟩
    · exact .inr ⟨passed, q, es, [], hpass, ⟨htrailing, hitem, rfl, rfl, rfl⟩,
        (List.append_nil es).symm⟩

theorem separates_of_iterate {fuel : Nat}
    (h : iterate (separatedStep trailing (env.calls n) item separator scope) fuel c p =
      .ok ⟨some d, q, es⟩) : env.Separates trailing item separator scope p c d q es := by
  induction fuel generalizing c p es with
  | zero => cases h
  | succ fuel ih =>
    rw [iterate_succ] at h
    obtain ⟨y, m, fs, gs, hstep, hnext, rfl⟩ := bind_some_cases h
    have hstep := settles_of_ok (m := fun n => separatedStep trailing (env.calls n) item separator
      scope c) hstep
    cases y with
    | done t =>
      cases hnext
      rw [List.append_nil]
      obtain ⟨rfl, ⟨⟨_, hnone⟩, rfl, rfl⟩ | hbehind⟩ := settles_separatedStep_done_iff.1 hstep
      · exact .declined hnone
      · exact .behind hbehind
    | yield t =>
      obtain ⟨passed, l, fs, hs, hpass, ⟨outputs, hitem, rfl⟩, rfl⟩ :=
        settles_separatedStep_iff.1 hstep
      exact .more hpass hitem (ih hnext)

theorem Separates.settles (h : env.Separates trailing item separator scope p c d q es) :
    Settles (fun n => iterate (separatedStep trailing (env.calls n) item separator scope) n c) p
      (.ok ⟨some d, q, es⟩) := by
  have hgrows := grows_separatedStep env trailing item separator scope
  induction h with
  | declined hnone =>
    exact settles_iterate_of_done hgrows
      (settles_separatedStep_done_iff.2 ⟨rfl, .inl ⟨⟨_, hnone⟩, rfl, rfl⟩⟩)
  | behind hbehind =>
    exact settles_iterate_of_done hgrows (settles_separatedStep_done_iff.2 ⟨rfl, .inr hbehind⟩)
  | @more p m q r c d passed outputs fs gs hs hpass hitem _ ih =>
    have hstep := (settles_separatedStep_iff (c := c)).2
      ⟨passed, m, fs, gs, hpass, ⟨outputs, hitem, rfl⟩, rfl⟩
    exact settles_iterate_of_yield hgrows hstep ih

theorem settles_separated_iff :
    Settles (fun n => iterate (separatedStep trailing (env.calls n) item separator scope) n c) p
        (.ok ⟨some d, q, es⟩) ↔ env.Separates trailing item separator scope p c d q es :=
  ⟨fun ⟨_, _, hn⟩ => separates_of_iterate hn, Separates.settles⟩

/-- A list with separators matches by its first item and what its loop takes up behind that. -/
theorem parseEnds_separated_iff {outputs : Outputs} :
    env.ParseEnds (.separated trailing item separator) scope p (.ok ⟨some outputs, q, es⟩) ↔
      ∃ first m fs gs d, env.ParseEnds item scope p (.ok ⟨some first, m, fs⟩) ∧
        env.Separates trailing item separator scope m
          (scope.value.push (scope.value.container scope.state) first) d q gs ∧
        outputs = [d.finish] ∧ es = fs ++ gs := by
  have hloop := grows_iterate (grows_separatedStep env trailing item separator scope)
  have hlast : ∀ c : Container, Grows fun _ => (pure [c.finish] : Parse Outputs) :=
    fun _ => grows_const _
  refine (endAlike_separated env trailing item separator scope p _).trans
    ((settles_bind_ok_iff (grows_parse env item scope) fun _ => (hloop _).bind hlast).trans ?_)
  constructor
  · rintro ⟨first, m, fs, gs, hfirst, hbehind, rfl⟩
    obtain ⟨d, r, gs, hs, hd, hfinish, rfl⟩ := (settles_bind_ok_iff (hloop _) hlast).1 hbehind
    obtain ⟨-, _, hfinish⟩ := hfinish
    cases hfinish
    exact ⟨first, m, fs, gs ++ [], d, hfirst, by rwa [List.append_nil, ← settles_separated_iff],
      rfl, rfl⟩
  · rintro ⟨first, m, fs, gs, d, hfirst, hseparates, rfl, rfl⟩
    exact ⟨first, m, fs, gs, hfirst, (settles_bind_ok_iff (hloop _) hlast).2
      ⟨d, q, gs, [], hseparates.settles, settles_pure _ q, (List.append_nil gs).symm⟩, rfl⟩

end

/-! ## The two lists -/

/-- Whatever is taken up with an item behind every separator is also taken up where there need be
none behind the last one. -/
theorem Separates.trailing (hitem : env.grammar.Decisive item)
    (h : env.Separates false item separator scope p c d q es) :
    env.Separates true item separator scope p c d q es := by
  induction h with
  | declined hnone => exact .declined hnone
  | behind hbehind => exact nomatch hbehind.1
  | more hpass hends _ ih => exact .more hpass (finishEnds_of_decisive hitem hends) ih

/-- If a list with separators matches, whose item matches only where it applies, then the list that
may end with a separator matches in the same way. -/
theorem listTrailing_of_listSep (hitem : env.grammar.Decisive item) {outputs : Outputs}
    (h : env.ParseEnds (.listSep item separator) scope p (.ok ⟨some outputs, q, es⟩)) :
    env.ParseEnds (.listTrailing item separator) scope p (.ok ⟨some outputs, q, es⟩) := by
  change env.ParseEnds (.separated false item separator) scope p _ at h
  show env.ParseEnds (.separated true item separator) scope p _
  obtain ⟨first, m, fs, gs, d, hfirst, hseparates, houtputs, hes⟩ := parseEnds_separated_iff.1 h
  exact parseEnds_separated_iff.2
    ⟨first, m, fs, gs, d, hfirst, hseparates.trailing hitem, houtputs, hes⟩

/-- Two numbers with a comma between them, and a semicolon. -/
theorem listTrailing_of_listSep_digits :
    let env : Environment := ⟨⟨#[], #[]⟩, ⟨.ascii, #[0x31, 0x2C, 0x32, 0x3B], by decide⟩, 4⟩
    let item : Rule := .capture (.digits .decimal)
    let comma : Rule := .token (.literal ",")
    env.grammar.Decisive item ∧ ∃ outputs es,
      env.ParseEnds (.listSep item comma) .silent 0 (.ok ⟨some outputs, 3, es⟩) ∧
      env.ParseEnds (.listTrailing item comma) .silent 0 (.ok ⟨some outputs, 3, es⟩) := by
  intro env item comma
  have hitem : env.grammar.Decisive item := .capture _
  have hrun : (env.parse 8 (.listSep item comma) .silent).answers 0 (fun o =>
      o.result.isSome && o.position == 3) = true := by decide +kernel
  obtain ⟨⟨result, position, es⟩, ho, hcheck⟩ := Parse.exists_of_answers hrun
  rw [Bool.and_eq_true, Option.isSome_iff_exists, beq_iff_eq] at hcheck
  obtain ⟨⟨outputs, rfl⟩, rfl⟩ := hcheck
  exact ⟨hitem, outputs, es, settles_of_ok ho, listTrailing_of_listSep hitem (settles_of_ok ho)⟩

/-- An item whose condition is the placeholder is parsed behind a separator, but where it may be
missing it is not tried with success: one list takes up both letters, the other one the first. -/
theorem listTrailing_never :
    let env : Environment := ⟨⟨#[], #[]⟩, ⟨.utf8, #[0x61, 0x2C, 0x62], by decide⟩, 3⟩
    let item : Rule := .branch .never (.capture (.charClass .alpha))
    let comma : Rule := .token (.literal ",")
    env.grammar.isBranch item = true ∧ (∀ s, ¬ env.grammar.Contains item (.recover s)) ∧
    (∃ o, env.ParseEnds (.listSep item comma) .silent 0 (.ok o) ∧ o.result.isSome ∧
      o.position = 3) ∧
    ∃ o, env.ParseEnds (.listTrailing item comma) .silent 0 (.ok o) ∧ o.result.isSome ∧
      o.position = 2 := by
  intro env item comma
  have hsep : (env.parse 8 (.listSep item comma) .silent).answers 0 (fun o =>
      o.result.isSome && o.position == 3) = true := by decide +kernel
  have htrailing : (env.parse 8 (.listTrailing item comma) .silent).answers 0 (fun o =>
      o.result.isSome && o.position == 2) = true := by decide +kernel
  obtain ⟨o, ho, hcheck⟩ := Parse.exists_of_answers hsep
  obtain ⟨o', ho', hcheck'⟩ := Parse.exists_of_answers htrailing
  rw [Bool.and_eq_true, beq_iff_eq] at hcheck hcheck'
  refine ⟨by decide +kernel, ?_, ⟨o, settles_of_ok ho, hcheck⟩, o', settles_of_ok ho', hcheck'⟩
  intro s h
  rcases Grammar.Contains.of_branch h with h | h
  · cases h with
    | part hs _ => cases hs
  · cases h with
    | part hs _ => cases hs

end Environment

end Phrase
