import Phrase.Proofs.Parse.Law

/-!
# Every rule keeps a law

If the rules inside of a rule keep an event law, so does the rule, whether it is parsed or
goes on from an attempt.  By induction on the fuel that is so for the whole interpreter
(`EventLaw.parse_allows`, `EventLaw.attempt_allows`).
-/

namespace Phrase

/-! ## Symbols -/

theorem Trie.length_longest_le {us : List Nat} {t : Trie} {number length : Nat}
    (h : t.longest us = some (number, length)) : length ≤ us.length := by
  induction us generalizing t number length with
  | nil =>
    obtain ⟨key?, edges⟩ := t
    rw [longest] at h
    obtain ⟨k, -, hk⟩ := Option.map_eq_some_iff.1 h
    cases hk
    exact Nat.le_refl 0
  | cons u us ih =>
    obtain ⟨key?, edges⟩ := t
    rw [longest] at h
    split at h
    · next n l hl =>
      cases h
      obtain ⟨t', -, ht'⟩ := Option.bind_eq_some_iff.1 hl
      exact Nat.succ_le_succ (ih ht')
    · obtain ⟨k, -, hk⟩ := Option.map_eq_some_iff.1 h
      cases hk
      exact Nat.zero_le _

theorem Environment.findSymbol_le {env : Environment} {table : Nat} {c : Cursor} {v : Value}
    {stop : Nat} (hc : c.position ≤ c.stop) (h : env.findSymbol table c = some (v, stop)) :
    c.position ≤ stop ∧ stop ≤ c.stop := by
  unfold findSymbol at h
  obtain ⟨⟨number, length⟩, hlongest, h⟩ := Option.bind_eq_some_iff.1 h
  obtain ⟨entry, -, h⟩ := Option.bind_eq_some_iff.1 h
  cases h
  have hlen := Trie.length_longest_le hlongest
  have hahead := c.length_ahead_le
    ((env.grammar.table table).index c.source.encoding).reach
  omega

/-! ## Steps -/

namespace Environment

variable {env : Environment} {calls : Calls} {p stop : Nat} {β : Type}

theorem moveTo_eq (hs : stop ≤ env.stop) : env.moveTo stop p = .ok ⟨some (), stop, []⟩ := by
  unfold moveTo Parse.move
  have hmove := Cursor.moveTo_eq (c := env.cursor p) (q := stop) hs
  simp only [hmove]
  rfl

theorem passToken_eq (kind : TokenKind) (hs : stop ≤ env.stop) :
    env.passToken kind stop p = .ok ⟨some (), stop, [.token kind ⟨p, stop⟩]⟩ := by
  unfold passToken
  rw [Parse.bind_of_some (m := Parse.position) rfl,
    Parse.bind_of_some (m := Parse.emit _) rfl, moveTo_eq hs]
  rfl

theorem report_fail_eq (scope : Scope) (kind : ErrorKind) (range : Span) :
    (report scope kind range >>= fun _ => (Parse.fail : Parse β)) p =
      .ok ⟨none, p, [.error ⟨kind, range, scope.production⟩]⟩ := rfl

/-- A token that is passed over and refused. -/
theorem refuse_eq (scope : Scope) (kind : TokenKind) (error : ErrorKind) (hs : stop ≤ env.stop) :
    (env.passToken kind stop >>= fun _ =>
      report scope error ⟨p, stop⟩ >>= fun _ => (Parse.fail : Parse β)) p = .ok ⟨none, stop,
        [.token kind ⟨p, stop⟩, .error ⟨error, ⟨p, stop⟩, scope.production⟩]⟩ := by
  rw [Parse.bind_of_some (passToken_eq kind hs), report_fail_eq]
  rfl

/-- Finishing a token makes it and skips whitespace; outputs follow unless that fails. -/
theorem finishToken_pure_eq (scope : Scope) (kind : TokenKind) (outputs : Outputs)
    (hs : stop ≤ env.stop) :
    (env.finishToken calls kind stop scope >>= fun _ => (pure outputs : Parse Outputs)) p =
      (skipWhitespace calls scope stop).map fun o =>
        ⟨o.result.map fun _ => outputs, o.position, .token kind ⟨p, stop⟩ :: o.events⟩ := by
  have hfinish : env.finishToken calls kind stop scope p =
      (skipWhitespace calls scope stop).map fun o =>
        ⟨o.result, o.position, .token kind ⟨p, stop⟩ :: o.events⟩ := by
    rw [finishToken, Parse.bind_of_some (passToken_eq kind hs)]
    cases skipWhitespace calls scope stop with
    | error h => rfl
    | ok o => rfl
  cases hskip : skipWhitespace calls scope stop with
  | error h =>
    rw [hskip] at hfinish
    exact Parse.bind_of_error hfinish
  | ok o =>
    obtain ⟨result, q, es⟩ := o
    rw [hskip] at hfinish
    cases result with
    | none => exact Parse.bind_of_none hfinish
    | some u =>
      rw [Parse.bind_of_some hfinish]
      simp only [Parse.pure_apply, List.append_nil]
      rfl

/-- A failure passes over what has been read, and reports. -/
theorem reportFailure_eq (scope : Scope) {f : TokenFailure} (hp : p ≤ f.stop)
    (hs : f.stop ≤ env.stop) :
    env.reportFailure f scope p = .ok ⟨some (), f.stop,
      (if p < f.stop then [.token .error ⟨p, f.stop⟩] else []) ++
        [.error ⟨f.kind, f.range, scope.production⟩]⟩ := by
  unfold reportFailure
  rw [Parse.bind_of_some (m := Parse.position) rfl]
  by_cases h : p < f.stop
  · rw [if_pos h, if_pos h]
    rw [Parse.bind_of_some (m := Parse.emit _) rfl, Parse.bind_of_some (moveTo_eq hs)]
    rfl
  · have hpf : p = f.stop := by omega
    rw [if_neg h, if_neg h, ← hpf]
    rfl

theorem findSymbolTo_cases (table : Nat) (hp : p ≤ stop) (hstop : stop ≤ env.stop) :
    ∃ v?, env.findSymbolTo table stop p = .ok v? := by
  have hpart : (env.cursor p).partialTo stop = .ok { env.cursor p with stop } := by
    rw [Cursor.partialTo, if_pos ⟨hp, hstop⟩]
  unfold findSymbolTo
  rw [hpart]
  simp only [bind, Except.bind]
  split
  · exact ⟨_, rfl⟩
  · exact ⟨_, rfl⟩

theorem findKeyword_cases (table : Nat) (trailing : CharClass) (hp : p ≤ env.stop) :
    ∃ found, env.findKeyword table trailing p = .ok found ∧
      ∀ v stop, found = some (v, stop) → p ≤ stop ∧ stop ≤ env.stop := by
  unfold findKeyword
  split
  · exact ⟨none, rfl, fun _ _ h => by cases h⟩
  · next v stop hfound =>
    have hle := findSymbol_le (c := env.cursor p) hp hfound
    rw [Cursor.moveTo_eq hle.2]
    refine ⟨_, rfl, fun w q h => ?_⟩
    split at h
    · cases h
    · cases h
      exact hle

end Environment

namespace EventLaw

variable {env : Environment} {calls : Calls}

/-- What is known of the rules inside of a rule: they keep the law, and used as tokens they
stay between the bounds. -/
structure KeptBy (law : EventLaw env) (calls : Calls) : Prop where
  parse : ∀ {r scope p}, law.Admits r → law.AdmitsScope scope → p ≤ env.stop →
    law.Allows (calls.parse r scope) p
  attempt : ∀ {r scope p}, law.Admits r → law.AdmitsScope scope → p ≤ env.stop →
    law.AllowsAttempt (calls.attempt r) scope p
  token : ∀ {r p}, p ≤ env.stop → (bounds env).Allows (calls.parse r .silent) p

section
variable {law : EventLaw env} (hcalls : law.KeptBy calls) {scope : Scope} {p stop : Nat}
  {β : Type} {Fits : β → Nat → Prop}

/-! ## Whitespace -/

theorem admitsScope_insideWhitespace : law.AdmitsScope scope.insideWhitespace :=
  fun _ h => by cases h

theorem AdmitsScope.withoutAuto (hs : law.AdmitsScope scope) :
    law.AdmitsScope scope.withoutAuto := hs

theorem AdmitsScope.inside {production : Production} (hs : law.AdmitsScope scope)
    (hw : ∀ w, production.whitespace = some w → law.Admits w) :
    law.AdmitsScope (scope.inside production) := by
  intro w h
  unfold Scope.inside at h
  simp only at h
  split at h
  · exact hw w h
  · rcases Option.or_eq_some_iff.1 h with h | ⟨-, h⟩
    · exact hw w h
    · exact hs w h

theorem ensures_attempt {a : Attempt} {commit? : Option Commit → Parse β} (hp : p ≤ env.stop)
    (ha : law.AllowsAttempt a scope p)
    (hnone : law.Ensures (commit? none) p Fits)
    (hsome : ∀ commit, law.Allows (commit scope) p → law.Ensures (commit? (some commit)) p Fits) :
    law.Ensures (Parse.look a >>= commit?) p Fits := by
  have hlook : law.Ensures (Parse.look a) p fun c? q =>
      q = p ∧ ∀ c, c? = some c → law.Allows (c scope) p := by
    apply ensures_look hp
    unfold AllowsAttempt at ha
    split
    · next c? hc =>
      refine ⟨rfl, fun c h => ?_⟩
      rw [hc, h] at ha
      exact ha
    · next e he =>
      rw [he] at ha
      exact ha
  refine hlook.bind ?_
  rintro c? q - - ⟨rfl, hc⟩
  cases c? with
  | none => exact hnone
  | some c => exact hsome c (hc c rfl)

theorem passToken_ensures (kind : TokenKind) (hp : p ≤ stop) (hstop : stop ≤ env.stop) :
    law.Ensures (env.passToken kind stop) p fun _ q => q = stop :=
  ensures_of_eq (Environment.passToken_eq kind hstop) hp hstop (law.token kind hp)
    fun _ _ => rfl

theorem report_fail_allows (kind : ErrorKind) (hp : p ≤ env.stop) :
    law.Ensures (Environment.report scope kind ⟨p, p⟩ >>= fun _ => Parse.fail) p Fits :=
  ensures_of_eq (Environment.report_fail_eq scope kind _) (Nat.le_refl p) hp
    (law.failed _ rfl) fun _ h => by cases h

theorem reportFailure_fail_ensures {f : TokenFailure} (hf : TokenMatch.Within p env.stop (.error f)) :
    law.Ensures (env.reportFailure f scope >>= fun _ => Parse.fail) p Fits := by
  obtain ⟨hstart, hrange, hread, hstop⟩ := hf
  have hp : p ≤ f.stop := by omega
  refine ensures_of_eq (o := ⟨none, f.stop, (if p < f.stop then
    [.token .error ⟨p, f.stop⟩] else []) ++ [.error ⟨f.kind, f.range, scope.production⟩]⟩)
    ?_ hp hstop ?_ fun _ h => by cases h
  · rw [Parse.bind_of_some (Environment.reportFailure_eq scope hp hstop)]
    simp only [Parse.fail, List.append_nil]
  · split
    · exact law.refused _ _ hstart hrange hread
    · obtain ⟨stop, kind, ⟨start, last⟩⟩ := f
      simp only at *
      obtain rfl : p = stop := by omega
      obtain rfl : start = p := by omega
      obtain rfl : last = start := by omega
      exact law.failed _ rfl

/-- A token that is passed over and refused. -/
theorem refused_allows (kind : TokenKind) (error : ErrorKind) (hp : p ≤ stop)
    (hstop : stop ≤ env.stop) :
    law.Ensures (env.passToken kind stop >>= fun _ =>
      Environment.report scope error ⟨p, stop⟩ >>= fun _ => Parse.fail) p Fits :=
  ensures_of_eq (Environment.refuse_eq scope kind error hstop) hp hstop
    (law.refused _ _ (Nat.le_refl p) hp (Nat.le_refl stop)) fun _ h => by cases h

theorem refuseSymbol_allows (kind : TokenKind) (hp : p ≤ stop) (hstop : stop ≤ env.stop) :
    law.Allows (env.refuseSymbol kind stop scope) p := by
  refine (ensures_position (Nat.le_trans hp hstop)).bind ?_
  rintro begin q - - ⟨rfl, rfl⟩
  exact refused_allows _ _ hp hstop

include hcalls

theorem skipBranch_allows {w : Rule} (hw : law.Admits w) (hs : law.AdmitsScope scope)
    (hp : p ≤ env.stop) : law.Allows (Environment.skipBranch calls w scope) p := by
  refine allows_iterate (fun _ q hq => ?_) _ _ hp
  refine ensures_attempt hq (hcalls.attempt hw hs hq) (ensures_pure hq trivial) ?_
  intro commit hcommit
  refine (ensures_position hq).bind ?_
  rintro before q' - hq' ⟨-, rfl⟩
  refine hcommit.bind fun _ r _ hr _ => ?_
  refine (ensures_position hr).bind fun position s _ hs _ => ?_
  split
  · exact ensures_pure hs trivial
  · exact ensures_pure hs trivial

theorem skipWith_allows {w : Rule} (hw : law.Admits w) (hp : p ≤ env.stop) :
    law.Allows (Environment.skipWith calls w scope) p :=
  (skipBranch_allows hcalls hw admitsScope_insideWhitespace hp).asOneToken _

theorem skipScopeWhitespace_allows (hs : law.AdmitsScope scope) (hp : p ≤ env.stop) :
    law.Allows (Environment.skipScopeWhitespace calls scope) p := by
  unfold Environment.skipScopeWhitespace
  split
  · next w hw => exact skipWith_allows hcalls (hs w hw) hp
  · exact ensures_pure hp trivial

theorem skipWhitespace_allows (hs : law.AdmitsScope scope) (hp : p ≤ env.stop) :
    law.Allows (Environment.skipWhitespace calls scope) p := by
  unfold Environment.skipWhitespace
  split
  · exact skipScopeWhitespace_allows hcalls hs hp
  · exact ensures_pure hp trivial

/-! ## Tokens -/

theorem finishToken_allows (kind : TokenKind) (hs : law.AdmitsScope scope) (hp : p ≤ stop)
    (hstop : stop ≤ env.stop) : law.Allows (env.finishToken calls kind stop scope) p :=
  (passToken_ensures kind hp hstop).bind fun _ _ _ hq _ => skipWhitespace_allows hcalls hs hq

theorem matchToken_within (t : Token) (hp : p ≤ env.stop) :
    match env.matchToken calls t p with
    | .ok m => m.Within p env.stop
    | .error h => env.Excuses h := by
  by_cases ht : ∃ r kind, t = .rule r kind
  · obtain ⟨r, kind, rfl⟩ := ht
    have hr := hcalls.token (r := r) hp
    unfold Allows Ensures at hr
    unfold Environment.matchToken
    simp only
    cases ho : calls.parse r .silent p with
    | error h => rw [ho] at hr; exact hr
    | ok o =>
      rw [ho] at hr
      obtain ⟨result, q, es⟩ := o
      cases result with
      | none => exact ⟨Nat.le_refl p, hr.1.1, Nat.le_refl q, hr.1.2⟩
      | some a => exact hr.1
  · obtain ⟨m, hm, hw⟩ := Token.matchUnits?_within (c := env.cursor p) hp t
      fun r kind h => ht ⟨r, kind, h⟩
    have heq : env.matchToken calls t p = .ok m := by
      unfold Environment.matchToken
      split
      · exact absurd ⟨_, _, rfl⟩ ht
      · rw [hm]
    rw [heq]
    exact hw

/-- A token that is expected ends further on, without a step so far. -/
theorem expectToken_ensures (t : Token) (hp : p ≤ env.stop) :
    law.Ensures (env.expectToken calls t scope) p fun stop q =>
      q = p ∧ p ≤ stop ∧ stop ≤ env.stop := by
  have hmatch := matchToken_within hcalls t hp
  have hlook : law.Ensures (Parse.look (env.matchToken calls t)) p fun m q =>
      q = p ∧ TokenMatch.Within p env.stop m := by
    apply ensures_look hp
    split
    · next m hm => rw [hm] at hmatch; exact ⟨rfl, hmatch⟩
    · next h hh => rw [hh] at hmatch; exact hmatch
  unfold Environment.expectToken
  refine hlook.bind ?_
  rintro m q - hq ⟨rfl, hw⟩
  cases m with
  | ok stop => exact ensures_pure hq ⟨rfl, hw⟩
  | error f => exact reportFailure_fail_ensures hw

theorem commitToken_allows (t : Token) (hs : law.AdmitsScope scope) (hp : p ≤ stop)
    (hstop : stop ≤ env.stop) : law.Allows (env.commitToken calls t stop scope) p :=
  (finishToken_allows hcalls t.kind hs hp hstop).bind fun _ _ _ hq _ => ensures_pure hq trivial

theorem commitCapture_allows (t : Token) (hs : law.AdmitsScope scope) (hp : p ≤ stop)
    (hstop : stop ≤ env.stop) : law.Allows (env.commitCapture calls t stop scope) p := by
  refine (ensures_position (Nat.le_trans hp hstop)).bind ?_
  rintro begin q - - ⟨rfl, rfl⟩
  exact (finishToken_allows hcalls t.kind hs hp hstop).bind fun _ _ _ hq _ =>
    ensures_pure hq trivial

theorem commitInteger_allows (type : IntegerType) (radix : Radix) (hs : law.AdmitsScope scope)
    (hp : p ≤ stop) (hstop : stop ≤ env.stop) :
    law.Allows (env.commitInteger calls type radix stop scope) p := by
  unfold Environment.commitInteger
  refine (ensures_position (Nat.le_trans hp hstop)).bind ?_
  rintro begin q - hq ⟨rfl, rfl⟩
  have hslice : law.Ensures (Parse.lift (env.source.slice ⟨q, stop⟩)) q fun _ r => r = q := by
    apply ensures_lift hq
    unfold Source.slice
    split
    · next h =>
      split at h
      · exact rfl
      · cases h
    · next h =>
      split at h
      · cases h
      · show env.source.size < env.stop
        next hn => simp only at hn; omega
  refine hslice.bind ?_
  rintro digits r - - rfl
  split
  · exact (finishToken_allows hcalls .digits hs hp hstop).bind fun _ _ _ hq _ =>
      ensures_pure hq trivial
  · exact refused_allows _ _ hp hstop

/-! ## Symbols -/

theorem commitSymbol_allows (kind : TokenKind) (v : Value) (hs : law.AdmitsScope scope)
    (hp : p ≤ stop) (hstop : stop ≤ env.stop) :
    law.Allows (env.commitSymbol calls kind v stop scope) p :=
  (finishToken_allows hcalls kind hs hp hstop).bind fun _ _ _ hq _ => ensures_pure hq trivial

/-! ## Sequences -/

theorem andThen_allows {first : Parse Outputs} {rest : Rule} (hrest : law.Admits rest)
    (hs : law.AdmitsScope scope) (hfirst : law.Allows first p) :
    law.Allows (Environment.andThen calls first rest scope) p :=
  hfirst.bind fun _ _ _ hq _ => (hcalls.parse hrest hs hq).bind fun _ _ _ hr _ =>
    ensures_pure hr trivial

theorem thenSkip_allows {first : Parse Outputs} (hs : law.AdmitsScope scope)
    (hfirst : law.Allows first p) : law.Allows (Environment.thenSkip calls first scope) p :=
  hfirst.bind fun _ _ _ hq _ => (skipWhitespace_allows hcalls hs hq).bind fun _ _ _ hr _ =>
    ensures_pure hr trivial

/-! ## Repetition -/

theorem moreItems_allows {item : Rule} (hi : law.Admits item) (hs : law.AdmitsScope scope)
    (c : Container) (hp : p ≤ env.stop) :
    law.Allows (Environment.moreItems calls item scope c) p := by
  refine allows_iterate (fun c q hq => ?_) _ _ hp
  refine ensures_attempt hq (hcalls.attempt hi hs hq) (ensures_pure hq trivial) ?_
  intro commit hcommit
  refine (ensures_position hq).bind fun _ _ _ _ h => ?_
  obtain ⟨rfl, rfl⟩ := h
  refine hcommit.bind fun _ r _ hr _ => ?_
  refine (ensures_position hr).bind fun _ s _ hs _ => ?_
  split
  · exact ensures_pure hs trivial
  · exact ensures_pure hs trivial

theorem listFrom_allows {item : Rule} {first : Parse Outputs} (hi : law.Admits item)
    (hs : law.AdmitsScope scope) (hfirst : law.Allows first p) :
    law.Allows (Environment.listFrom calls item scope first) p :=
  hfirst.bind fun _ _ _ hq _ => (moreItems_allows hcalls hi hs _ hq).bind
    fun _ _ _ hr _ => ensures_pure hr trivial

theorem separatedItems_allows {item separator : Rule} (hi : law.Admits item)
    (hsep : law.Admits separator) (hs : law.AdmitsScope scope) (c : Container)
    (hp : p ≤ env.stop) :
    law.Allows (Environment.separatedItems calls item separator scope c) p := by
  refine allows_iterate (fun c q hq => ?_) _ _ hp
  refine ensures_attempt hq (hcalls.attempt hsep hs hq) (ensures_pure hq trivial) ?_
  intro commit hcommit
  refine hcommit.bind fun _ r _ hr _ => ?_
  exact (hcalls.parse hi hs hr).bind fun _ _ _ ht _ => ensures_pure ht trivial

theorem trailedItems_allows {item separator : Rule} (hi : law.Admits item)
    (hsep : law.Admits separator) (hs : law.AdmitsScope scope) (c : Container)
    (hp : p ≤ env.stop) :
    law.Allows (Environment.trailedItems calls item separator scope c) p := by
  refine allows_iterate (fun c q hq => ?_) _ _ hp
  refine ensures_attempt hq (hcalls.attempt hsep hs hq) (ensures_pure hq trivial) ?_
  intro commit hcommit
  refine hcommit.bind fun _ r _ hr _ => ?_
  refine ensures_attempt hr (hcalls.attempt hi hs hr) (ensures_pure hr trivial) ?_
  intro commit' hcommit'
  exact hcommit'.bind fun _ _ _ ht _ => ensures_pure ht trivial

/-! ## Productions -/

theorem inProduction_allows (production : Production) {body : Commit}
    (hs : law.AdmitsScope scope) (hp : p ≤ env.stop)
    (hbody : law.Allows (body (scope.inside production)) p) :
    law.Allows (Environment.inProduction calls production scope body) p := by
  unfold Environment.inProduction
  split
  · refine (ensures_position hp).bind ?_
    rintro position q - hq ⟨rfl, rfl⟩
    exact report_fail_allows _ hq
  · exact (hbody.between production.name).bind fun _ _ _ hq _ =>
      (skipWhitespace_allows hcalls hs hq).bind fun _ _ _ hr _ => ensures_pure hr trivial

/-! ## All rules -/

theorem parseRule_allows {r : Rule} (hr : law.Admits r) (hs : law.AdmitsScope scope)
    (hp : p ≤ env.stop) : law.Allows (env.parseRule calls r scope) p := by
  have hpart := fun s (h : s ∈ r.parts) => law.admits_part hr h
  cases r with
  | token t =>
    refine (expectToken_ensures hcalls t hp).bind ?_
    rintro stop q - - ⟨rfl, hps, hstop⟩
    exact commitToken_allows hcalls t hs hps hstop
  | capture t =>
    refine (expectToken_ensures hcalls t hp).bind ?_
    rintro stop q - - ⟨rfl, hps, hstop⟩
    exact commitCapture_allows hcalls t hs hps hstop
  | integer type radix =>
    refine (expectToken_ensures hcalls (.digits radix) hp).bind ?_
    rintro stop q - - ⟨rfl, hps, hstop⟩
    exact commitInteger_allows hcalls type radix hs hps hstop
  | position =>
    exact ensures_of_eq (o := ⟨some [.pos p], p, [.token .position ⟨p, p⟩]⟩) rfl
      (Nat.le_refl p) hp (law.token .position (Nat.le_refl p)) fun _ _ => trivial
  | symbol table =>
    have hlook : law.Ensures
        (Parse.look fun p => .ok (env.findSymbol table (env.cursor p))) p fun found q =>
        q = p ∧ ∀ v stop, found = some (v, stop) → p ≤ stop ∧ stop ≤ env.stop := by
      apply ensures_look hp
      exact ⟨rfl, fun v stop h => Environment.findSymbol_le (c := env.cursor p) hp h⟩
    refine hlook.bind ?_
    rintro found q - hq ⟨rfl, hfound⟩
    split
    · next v stop =>
      obtain ⟨hps, hstop⟩ := hfound v stop rfl
      exact commitSymbol_allows hcalls _ v hs hps hstop
    · refine (ensures_position hq).bind ?_
      rintro position r - hr ⟨rfl, rfl⟩
      exact report_fail_allows _ hr
  | symbolOf table t =>
    refine (expectToken_ensures hcalls t hp).bind ?_
    rintro stop q - hq ⟨rfl, hps, hstop⟩
    refine (ensures_position hq).bind ?_
    rintro position r - hr ⟨rfl, rfl⟩
    obtain ⟨v?, hv?⟩ := Environment.findSymbolTo_cases table hps hstop
    rw [hv?]
    have hlift : law.Ensures (Parse.lift (.ok v?)) r fun _ q => q = r := ensures_lift hr rfl
    refine hlift.bind ?_
    rintro w? q - - rfl
    split
    · next v => exact commitSymbol_allows hcalls _ v hs hps hstop
    · exact refuseSymbol_allows _ hps hstop
  | symbolIdentifier table leading trailing =>
    refine (ensures_position hp).bind ?_
    rintro position q - hq ⟨rfl, rfl⟩
    obtain ⟨found, heq, hfound⟩ := Environment.findKeyword_cases table trailing hq
    rw [heq]
    have hlift : law.Ensures (Parse.lift (.ok found)) q fun f r => f = found ∧ r = q :=
      ensures_lift hq ⟨rfl, rfl⟩
    refine hlift.bind ?_
    rintro f r - hr ⟨rfl, rfl⟩
    split
    · next v stop =>
      obtain ⟨hps, hstop⟩ := hfound v stop rfl
      exact commitSymbol_allows hcalls _ v hs hps hstop
    · refine (expectToken_ensures hcalls (.identifier leading trailing) hr).bind ?_
      rintro stop r' - - ⟨rfl, hps, hstop⟩
      exact refuseSymbol_allows _ hps hstop
  | seq first second =>
    exact andThen_allows hcalls (hpart second (by simp [Rule.parts])) hs
      (hcalls.parse (hpart first (by simp [Rule.parts])) hs hp)
  | branch condition rest =>
    exact andThen_allows hcalls (hpart rest (by simp [Rule.parts])) hs
      (hcalls.parse (hpart condition (by simp [Rule.parts])) hs hp)
  | choice first second =>
    refine ensures_attempt hp (hcalls.attempt hr hs hp) ?_ fun commit h => h
    refine (ensures_position hp).bind ?_
    rintro position q - hq ⟨rfl, rfl⟩
    exact report_fail_allows _ hq
  | opt r =>
    exact ensures_attempt hp (hcalls.attempt (hpart r (by simp [Rule.parts])) hs hp)
      (ensures_pure hp trivial) fun commit h => h
  | list item =>
    have hi := hpart item (by simp [Rule.parts])
    exact listFrom_allows hcalls hi hs (hcalls.parse hi hs hp)
  | listOpt item =>
    exact (moreItems_allows hcalls (hpart item (by simp [Rule.parts])) hs _ hp).bind
      fun _ _ _ hq _ => ensures_pure hq trivial
  | listSep item separator =>
    have hi := hpart item (by simp [Rule.parts])
    have hsep := hpart separator (by simp [Rule.parts])
    exact (hcalls.parse hi hs hp).bind fun _ _ _ hq _ =>
      (separatedItems_allows hcalls hi hsep hs _ hq).bind fun _ _ _ hr _ => ensures_pure hr trivial
  | listTrailing item separator =>
    have hi := hpart item (by simp [Rule.parts])
    have hsep := hpart separator (by simp [Rule.parts])
    exact (hcalls.parse hi hs hp).bind fun _ _ _ hq _ =>
      (trailedItems_allows hcalls hi hsep hs _ hq).bind fun _ _ _ hr _ => ensures_pure hr trivial
  | times count item =>
    have hi := hpart item (by simp [Rule.parts])
    refine Ensures.bind (allows_replicate (fun c q hq => ?_) count _ hp)
      fun _ _ _ hq _ => ensures_pure hq trivial
    exact (hcalls.parse hi hs hq).bind fun _ _ _ hr _ => ensures_pure hr trivial
  | production number =>
    obtain ⟨hrule, hw⟩ := law.admits_production (.inl hr)
    exact inProduction_allows hcalls _ hs hp (hcalls.parse hrule (hs.inside hw) hp)
  | recurse number =>
    obtain ⟨hrule, hw⟩ := law.admits_production (.inr hr)
    exact inProduction_allows hcalls _ hs hp (hcalls.parse hrule (hs.inside hw) hp)
  | recover r => exact (hcalls.parse (hpart r (by simp [Rule.parts])) hs hp).orDefault hr _
  | scopeWhitespace =>
    exact (skipScopeWhitespace_allows hcalls hs hp).bind fun _ _ _ hq _ => ensures_pure hq trivial
  | whitespace r =>
    exact (skipWith_allows hcalls (hpart r (by simp [Rule.parts])) hp).bind
      fun _ _ _ hq _ => ensures_pure hq trivial
  | noWhitespace r =>
    exact thenSkip_allows hcalls hs
      (hcalls.parse (hpart r (by simp [Rule.parts])) hs.withoutAuto hp)
  | never => exact ensures_pure hp trivial
  | fail message =>
    refine (ensures_position hp).bind ?_
    rintro position q - hq ⟨rfl, rfl⟩
    exact report_fail_allows _ hq
  | warn message =>
    exact ensures_of_eq (o := ⟨some [], p,
      [.error ⟨.custom message, ⟨p, p⟩, scope.production⟩]⟩) rfl (Nat.le_refl p) hp
      (law.warned _ hr rfl) fun _ _ => trivial
  | context => exact ensures_pure hp trivial
  | emit kind width =>
    refine (ensures_position hp).bind ?_
    rintro position q - hq ⟨rfl, rfl⟩
    exact (passToken_ensures kind (by omega) (Nat.min_le_left _ _)).bind
      fun _ _ _ hr _ => ensures_pure hr trivial

/-! ## All attempts -/

theorem allowsAttempt_of_token (t : Token) {commit : Nat → Commit} (hp : p ≤ env.stop)
    (hcommit : ∀ stop, p ≤ stop → stop ≤ env.stop → law.Allows (commit stop scope) p) :
    law.AllowsAttempt (fun position => do
      match ← env.matchToken calls t position with
      | .ok stop => return some (commit stop)
      | .error _ => return none) scope p := by
  have hmatch := matchToken_within hcalls t hp
  cases hm : env.matchToken calls t p with
  | error h =>
    simp only [AllowsAttempt, hm, bind, Except.bind] at hmatch ⊢
    exact hmatch
  | ok m =>
    rw [hm] at hmatch
    simp only [AllowsAttempt, hm, bind, Except.bind, pure, Except.pure]
    cases m with
    | ok stop => exact hcommit stop hmatch.1 hmatch.2
    | error f => exact trivial

omit hcalls in
/-- An attempt that leads on to more than the one it is made from. -/
theorem AllowsAttempt.map {a : Attempt} {scope' : Scope} {more : Commit → Commit}
    (ha : law.AllowsAttempt a scope' p)
    (hmore : ∀ commit, law.Allows (commit scope') p → law.Allows (more commit scope) p) :
    law.AllowsAttempt (fun position => do return (← a position).map more) scope p := by
  cases hap : a p with
  | error h =>
    simp only [AllowsAttempt, hap, bind, Except.bind] at ha ⊢
    exact ha
  | ok commit? =>
    simp only [AllowsAttempt, hap, bind, Except.bind, pure, Except.pure] at ha ⊢
    cases commit? with
    | none => exact trivial
    | some commit => exact hmore commit ha

theorem attemptRule_allows {r : Rule} (hr : law.Admits r) (hs : law.AdmitsScope scope)
    (hp : p ≤ env.stop) : law.AllowsAttempt (env.attemptRule calls r) scope p := by
  have hpart := fun s (h : s ∈ r.parts) => law.admits_part hr h
  cases r with
  | token t =>
    exact allowsAttempt_of_token hcalls t hp fun _ hps hstop =>
      commitToken_allows hcalls t hs hps hstop
  | capture t =>
    exact allowsAttempt_of_token hcalls t hp fun _ hps hstop =>
      commitCapture_allows hcalls t hs hps hstop
  | integer type radix =>
    exact allowsAttempt_of_token hcalls (.digits radix) hp fun _ hps hstop =>
      commitInteger_allows hcalls type radix hs hps hstop
  | position => exact hcalls.parse hr hs hp
  | symbol table =>
    cases hfound : env.findSymbol table (env.cursor p) with
    | none =>
      simp only [AllowsAttempt, Environment.attemptRule, hfound, pure, Except.pure, Option.map]
    | some found =>
      obtain ⟨hps, hstop⟩ := Environment.findSymbol_le (c := env.cursor p) hp hfound
      simp only [AllowsAttempt, Environment.attemptRule, hfound, pure, Except.pure, Option.map]
      exact commitSymbol_allows hcalls _ _ hs hps hstop
  | symbolOf table t =>
    have hmatch := matchToken_within hcalls t hp
    simp only [AllowsAttempt, Environment.attemptRule]
    cases hm : env.matchToken calls t p with
    | error h => rw [hm] at hmatch; exact hmatch
    | ok m =>
      rw [hm] at hmatch
      cases m with
      | error f => exact trivial
      | ok stop =>
        obtain ⟨v?, hv?⟩ := Environment.findSymbolTo_cases table hmatch.1 hmatch.2
        simp only [bind, Except.bind, pure, Except.pure, hv?]
        cases v? with
        | none => exact trivial
        | some v => exact commitSymbol_allows hcalls _ v hs hmatch.1 hmatch.2
  | symbolIdentifier table leading trailing =>
    obtain ⟨found, heq, hfound⟩ := Environment.findKeyword_cases table trailing hp
    simp only [AllowsAttempt, Environment.attemptRule, heq, pure, Except.pure]
    cases found with
    | none => exact trivial
    | some found =>
      obtain ⟨hps, hstop⟩ := hfound found.1 found.2 rfl
      exact commitSymbol_allows hcalls _ _ hs hps hstop
  | branch condition rest =>
    exact (hcalls.attempt (hpart condition (by simp [Rule.parts])) hs hp).map
      fun commit hcommit => andThen_allows hcalls (hpart rest (by simp [Rule.parts])) hs hcommit
  | choice first second =>
    have hfirst := hcalls.attempt (hpart first (by simp [Rule.parts])) hs hp
    have hsecond := hcalls.attempt (hpart second (by simp [Rule.parts])) hs hp
    cases hap : calls.attempt first p with
    | error h =>
      simp only [AllowsAttempt, Environment.attemptRule, hap, bind, Except.bind] at hfirst ⊢
      exact hfirst
    | ok commit? =>
      simp only [AllowsAttempt, Environment.attemptRule, hap, bind, Except.bind] at hfirst ⊢
      cases commit? with
      | some commit => exact hfirst
      | none => exact hsecond
  | list item =>
    have hi := hpart item (by simp [Rule.parts])
    exact (hcalls.attempt hi hs hp).map fun commit hcommit => listFrom_allows hcalls hi hs hcommit
  | production number =>
    obtain ⟨hrule, hw⟩ := law.admits_production (.inl hr)
    exact (hcalls.attempt hrule (hs.inside hw) hp).map fun commit hcommit =>
      inProduction_allows hcalls _ hs hp hcommit
  | recover r =>
    exact (hcalls.attempt (hpart r (by simp [Rule.parts])) hs hp).map fun commit hcommit =>
      hcommit.orDefault hr _
  | noWhitespace r =>
    exact (hcalls.attempt (hpart r (by simp [Rule.parts])) hs.withoutAuto hp).map
      fun commit hcommit => thenSkip_allows hcalls hs hcommit
  | seq | opt | listOpt | listSep | listTrailing | times | recurse | scopeWhitespace | whitespace
  | never | fail | warn | context | emit => exact trivial

end

/-! ## The interpreter -/

theorem keptBy_zero (law : EventLaw env) : law.KeptBy (env.calls 0) where
  parse _ _ _ := trivial
  attempt _ _ _ := trivial
  token _ := trivial

/-- What the rules inside of a rule ensure carries over to one more unit of fuel, as far as
tokens are known to stay between the bounds. -/
theorem KeptBy.succ {law : EventLaw env} {n : Nat} (h : law.KeptBy (env.calls n))
    (htoken : ∀ {r p}, p ≤ env.stop → (bounds env).Allows (env.parse (n + 1) r .silent) p) :
    law.KeptBy (env.calls (n + 1)) where
  parse hr hs hp := parseRule_allows h hr hs hp
  attempt hr hs hp := attemptRule_allows h hr hs hp
  token := htoken

theorem keptBy_bounds (env : Environment) (n : Nat) : (bounds env).KeptBy (env.calls n) := by
  induction n with
  | zero => exact keptBy_zero _
  | succ n ih =>
    exact ih.succ fun hp => parseRule_allows ih trivial (fun _ _ => trivial) hp

theorem keptBy (law : EventLaw env) (n : Nat) : law.KeptBy (env.calls n) := by
  induction n with
  | zero => exact law.keptBy_zero
  | succ n ih => exact ih.succ (keptBy_bounds env (n + 1)).token

/-- Matching a token ends between the bounds, whether the token is there or not. -/
theorem within_of_matchToken {n p : Nat} {t : Token} {m : TokenMatch} (hp : p ≤ env.stop)
    (h : env.matchToken (env.calls n) t p = .ok m) : m.Within p env.stop := by
  have hmatch := matchToken_within (keptBy_bounds env n) t hp
  rw [h] at hmatch
  exact hmatch

variable (law : EventLaw env) {n p : Nat} {r : Rule} {scope : Scope}

/-- Parsing keeps every law that admits the rule and the whitespace around it. -/
theorem parse_allows (hr : law.Admits r) (hs : law.AdmitsScope scope) (hp : p ≤ env.stop) :
    law.Allows (env.parse n r scope) p :=
  (law.keptBy n).parse hr hs hp

/-- Whoever goes on from an attempt keeps every such law. -/
theorem attempt_allows (hr : law.Admits r) (hs : law.AdmitsScope scope) (hp : p ≤ env.stop) :
    law.AllowsAttempt (env.attempt n r) scope p :=
  (law.keptBy n).attempt hr hs hp

end EventLaw

end Phrase
