import Phrase.Proofs.Parse.Fuel
import Phrase.Proofs.Parse.Rule

/-!
# Attempts and parses agree

A rule has two ways to be entered: it is parsed, or it is tried and then gone on with.  Where
it turns out to apply, going on ends as parsing does.  Where it does not, parsing fails, if
nothing in the rule recovers from failures (`Environment.attempt_agrees`).

The two ways call the rules inside of a rule with different fuel, so each is compared with the
other one given a little more.
-/

namespace Phrase

/-! ## Endings -/

namespace Environment

/-- Given enough fuel, parsing a rule ends with this answer; it may be a fault. -/
def ParseEnds (env : Environment) (r : Rule) (scope : Scope) (p : Nat)
    (x : Except Halt (Outcome Outputs)) : Prop :=
  x ≠ .error .exhausted ∧ ∃ n, env.parse n r scope p = x

/-- Given enough fuel, the rule applies, and going on from the attempt ends with this answer. -/
def FinishEnds (env : Environment) (r : Rule) (scope : Scope) (p : Nat)
    (x : Except Halt (Outcome Outputs)) : Prop :=
  x ≠ .error .exhausted ∧ ∃ n commit, env.attempt n r p = .ok (some commit) ∧ commit scope p = x

/-- A parse ends with one answer only. -/
theorem ParseEnds.unique {env : Environment} {r : Rule} {scope : Scope} {p : Nat}
    {x y : Except Halt (Outcome Outputs)} (hx : env.ParseEnds r scope p x)
    (hy : env.ParseEnds r scope p y) : x = y := by
  obtain ⟨hx, n, hn⟩ := hx
  obtain ⟨hy, m, hm⟩ := hy
  rw [← parse_mono (Nat.le_max_left n m) hn hx, ← parse_mono (Nat.le_max_right n m) hm hy]

end Environment

/-! ## Attempts and what they lead on to -/

namespace Environment

variable {env : Environment} {calls : Calls} {p : Nat} {scope : Scope}

theorem attemptToken_cases {t : Token} {commit : Nat → Commit} {commit? : Option Commit}
    (h : (do
      match ← env.matchToken calls t p with
      | .ok stop => return some (commit stop)
      | .error _ => return none) = Except.ok commit?) :
    (∃ stop, env.matchToken calls t p = .ok (.ok stop) ∧ commit? = some (commit stop)) ∨
      ∃ f, env.matchToken calls t p = .ok (.error f) ∧ commit? = none := by
  cases hm : env.matchToken calls t p with
  | error e =>
    rw [hm] at h
    cases h
  | ok m =>
    rw [hm] at h
    cases m with
    | ok stop => exact .inl ⟨stop, rfl, (Except.ok.inj h).symm⟩
    | error f => exact .inr ⟨f, rfl, (Except.ok.inj h).symm⟩

theorem map_cases {a : Attempt} {more : Commit → Commit} {commit? : Option Commit}
    (h : (do return (← a p).map more) = Except.ok commit?) :
    ∃ first?, a p = .ok first? ∧ commit? = first?.map more := by
  cases ha : a p with
  | error e =>
    rw [ha] at h
    cases h
  | ok first? =>
    rw [ha] at h
    exact ⟨first?, rfl, (Except.ok.inj h).symm⟩

theorem symbolOf_cases {table : Nat} {t : Token} {commit? : Option Commit}
    (h : env.attemptRule calls (.symbolOf table t) p = .ok commit?) :
    (∃ f, env.matchToken calls t p = .ok (.error f) ∧ commit? = none) ∨
      ∃ stop v?, env.matchToken calls t p = .ok (.ok stop) ∧
        env.findSymbolTo table stop p = .ok v? ∧
        commit? = v?.map fun v => env.commitSymbol calls t.kind v stop := by
  unfold attemptRule at h
  cases hm : env.matchToken calls t p with
  | error e =>
    simp only [hm] at h
    cases h
  | ok m =>
    simp only [hm, bind, Except.bind] at h
    cases m with
    | error f => exact .inl ⟨f, rfl, (Except.ok.inj h).symm⟩
    | ok stop =>
      simp only at h
      cases hv : env.findSymbolTo table stop p with
      | error f =>
        simp only [hv] at h
        cases h
      | ok v? =>
        simp only [hv] at h
        exact .inr ⟨stop, v?, rfl, hv, (Except.ok.inj h).symm⟩

theorem symbolIdentifier_cases {table : Nat} {leading trailing : CharClass}
    {commit? : Option Commit}
    (h : env.attemptRule calls (.symbolIdentifier table leading trailing) p = .ok commit?) :
    ∃ found, env.findKeyword table trailing p = .ok found ∧
      commit? = found.map fun (v, stop) => env.commitSymbol calls .identifier v stop := by
  unfold attemptRule at h
  cases hfound : env.findKeyword table trailing p with
  | error f =>
    simp only [hfound] at h
    cases h
  | ok found =>
    simp only [hfound] at h
    exact ⟨found, rfl, (Except.ok.inj h).symm⟩

/-! ## Rules that make one token -/

theorem expectToken_eq {t : Token} {stop : Nat}
    (h : env.matchToken calls t p = .ok (.ok stop)) :
    env.expectToken calls t scope p = .ok ⟨some stop, p, []⟩ := by
  unfold expectToken
  rw [Parse.bind_of_quiet (Parse.look_eq h)]
  rfl

theorem expectToken_bind {t : Token} {stop : Nat} (k : Nat → Parse Outputs)
    (h : env.matchToken calls t p = .ok (.ok stop)) :
    (env.expectToken calls t scope >>= k) p = k stop p :=
  Parse.bind_of_quiet (expectToken_eq h)

/-- To expect a token that has been tried is to go on behind it. -/
theorem expectToken_commit {t : Token} {commitAt : Nat → Commit} {commit : Commit}
    (h : (do
      match ← env.matchToken calls t p with
      | .ok stop => return some (commitAt stop)
      | .error _ => return none) = Except.ok (some commit)) (scope : Scope) :
    (env.expectToken calls t scope >>= fun stop => commitAt stop scope) p = commit scope p := by
  rcases attemptToken_cases h with ⟨stop, hm, hc⟩ | ⟨_, -, hc⟩
  · cases hc
    exact expectToken_bind (fun stop => commitAt stop scope) hm
  · cases hc

/-- Where a rule that makes one token applies, going on is all that is left of parsing. -/
theorem parseRule_eq_of_attempt {r : Rule} (hr : r.isToken) {commit : Commit}
    (h : env.attemptRule calls r p = .ok (some commit)) (scope : Scope) :
    env.parseRule calls r scope p = commit scope p := by
  cases r with
  | token t => exact expectToken_commit h scope
  | capture t => exact expectToken_commit h scope
  | integer type radix => exact expectToken_commit h scope
  | symbol table =>
    have h : (env.findSymbol table (env.cursor p)).map _ = some commit := Except.ok.inj h
    obtain ⟨⟨v, stop⟩, hfound, rfl⟩ := Option.map_eq_some_iff.1 h
    rw [parseRule, Parse.bind_of_quiet (Parse.look_eq (a := some (v, stop)) (by rw [hfound]))]
  | symbolOf table t =>
    rcases symbolOf_cases h with ⟨f, -, hc⟩ | ⟨stop, v?, hm, hv, hc⟩
    · cases hc
    · obtain ⟨v, rfl, rfl⟩ := Option.map_eq_some_iff.1 hc.symm
      rw [parseRule, expectToken_bind _ hm, Parse.bind_of_quiet (m := Parse.position) rfl, hv]
      exact Parse.bind_of_quiet (Parse.lift_ok _ _)
  | symbolIdentifier table leading trailing =>
    obtain ⟨found, hfound, hc⟩ := symbolIdentifier_cases h
    obtain ⟨⟨v, stop⟩, rfl, rfl⟩ := Option.map_eq_some_iff.1 hc.symm
    rw [parseRule, Parse.bind_of_quiet (m := Parse.position) rfl, hfound]
    exact Parse.bind_of_quiet (Parse.lift_ok _ _)
  | _ => cases hr

/-- A choice is parsed by trying it. -/
theorem parse_choice_eq {first second : Rule} {n : Nat} {commit : Commit}
    (h : env.attempt n (.choice first second) p = .ok (some commit)) :
    env.parse (n + 1) (.choice first second) scope p = commit scope p := by
  rw [parse_succ, parseRule]
  exact Parse.bind_of_quiet (Parse.look_eq h)

/-! ## Both directions -/

theorem map_some_cases {a : Attempt} {more : Commit → Commit} {commit : Commit}
    (h : (do return (← a p).map more) = Except.ok (some commit)) :
    ∃ first, a p = .ok (some first) ∧ commit = more first := by
  obtain ⟨first?, hfirst, hc⟩ := map_cases h
  obtain ⟨first, rfl, rfl⟩ := Option.map_eq_some_iff.1 hc.symm
  exact ⟨first, hfirst, rfl⟩

theorem parse_below_pred (n : Nat) (r : Rule) (scope : Scope) (p : Nat) :
    (env.parse n r scope).Below Eq (env.parseRule (env.calls (n - 1)) r scope) p := by
  cases n with
  | zero => exact .exhausted
  | succ n => exact .refl _ p

/-- Going on from an attempt answers what parsing with a little less fuel does, and parsing
with a little more answers what that does. -/
theorem commit_between {n : Nat} {r : Rule} {commit : Commit} (scope : Scope)
    (h : env.attempt n r p = .ok (some commit)) :
    (env.parse (n - 1) r scope).Below Eq (commit scope) p ∧
      (commit scope).Below Eq (env.parse (n + 1) r scope) p := by
  induction n generalizing r commit scope p with
  | zero => cases h
  | succ n ih =>
    have hless := env.calls_below (Nat.sub_le n 1)
    have hmore := env.calls_below (Nat.le_succ n)
    have hpred : (env.parse n r scope).Below Eq (env.parseRule (env.calls (n - 1)) r scope) p :=
      parse_below_pred n r scope p
    show (env.parse n r scope).Below Eq _ p ∧ _
    by_cases hr : r.isToken
    · have heq := parseRule_eq_of_attempt hr h scope
      have hn : (env.parse n r scope).Below Eq (env.parse (n + 1) r scope) p :=
        hmore.parse r scope p
      have hn' : (env.parse (n + 1) r scope).Below Eq (env.parse (n + 2) r scope) p :=
        parseRule_below hmore r scope p
      unfold Parse.Below at hn hn' ⊢
      rw [← heq]
      exact ⟨hn, hn'⟩
    · cases r with
      | position =>
        cases h
        exact ⟨.refl _ p, (env.calls_below (Nat.le_add_right n 2)).parse .position scope p⟩
      | choice first second =>
        have hn : (env.parse n (.choice first second) scope).Below Eq
            (env.parse (n + 2) (.choice first second) scope) p :=
          (env.calls_below (Nat.le_add_right n 2)).parse (.choice first second) scope p
        unfold Parse.Below at hn ⊢
        rw [parse_choice_eq h] at hn ⊢
        exact ⟨hn, Parse.Below.refl (commit scope) p⟩
      | branch condition rest =>
        obtain ⟨first, hfirst, rfl⟩ := map_some_cases h
        obtain ⟨hle, hge⟩ := ih scope hfirst
        exact ⟨hpred.trans (andThen_below hless hle rest scope),
          andThen_below hmore hge rest scope⟩
      | list item =>
        obtain ⟨first, hfirst, rfl⟩ := map_some_cases h
        obtain ⟨hle, hge⟩ := ih scope hfirst
        exact ⟨hpred.trans (listFrom_below hless hle), listFrom_below hmore hge⟩
      | production number =>
        obtain ⟨first, hfirst, rfl⟩ := map_some_cases h
        obtain ⟨hle, hge⟩ := ih (scope.inside (env.grammar.production number)) hfirst
        exact ⟨hpred.trans (inProduction_below hless _ scope hle),
          inProduction_below hmore _ scope hge⟩
      | recover r =>
        obtain ⟨first, hfirst, rfl⟩ := map_some_cases h
        obtain ⟨hle, hge⟩ := ih scope hfirst
        exact ⟨hpred.trans (hle.orDefault _), hge.orDefault _⟩
      | noWhitespace r =>
        obtain ⟨first, hfirst, rfl⟩ := map_some_cases h
        obtain ⟨hle, hge⟩ := ih scope.withoutAuto hfirst
        exact ⟨hpred.trans (thenSkip_below hless hle scope), thenSkip_below hmore hge scope⟩
      | token | capture | integer | symbol | symbolOf | symbolIdentifier => exact absurd rfl hr
      | seq | opt | listOpt | listSep | listTrailing | times | recurse | scopeWhitespace
      | whitespace | never | fail | warn | context | emit => cases h

/-- Where a rule applies, going on from the attempt ends as parsing does. -/
theorem finishEnds_iff {n : Nat} {r : Rule} {commit : Commit}
    (h : env.attempt n r p = .ok (some commit)) (x : Except Halt (Outcome Outputs)) :
    env.FinishEnds r scope p x ↔ env.ParseEnds r scope p x := by
  constructor
  · rintro ⟨hx, k, c, hc, hk⟩
    exact ⟨hx, k + 1, (commit_between scope hc).2.eq hk hx⟩
  · rintro ⟨hx, k, hk⟩
    obtain ⟨c?, hc, happrox⟩ := attempt_mono (Nat.le_succ_of_le (Nat.le_max_left n k)) h
    have hmono := parse_mono (Nat.le_max_right n k) hk hx
    cases happrox with
    | some _ => exact ⟨hx, _, _, hc, (commit_between scope hc).1.eq hmono hx⟩

end Environment

/-! ## Rules that do not apply -/

/-- The rules that can be tried.  A choice is parsed by trying it, whatever its alternatives are;
the others are decided by a rule inside of them, in the end by a token, a position or a symbol.  The
placeholder `never` decides none of them: it never applies, and yet it does not fail where it is
parsed. -/
inductive Grammar.Branch (g : Grammar) : Rule → Prop where
  | token (t : Token) : Branch g (.token t)
  | capture (t : Token) : Branch g (.capture t)
  | integer (type : IntegerType) (radix : Radix) : Branch g (.integer type radix)
  | position : Branch g .position
  | symbol (table : Nat) : Branch g (.symbol table)
  | symbolOf (table : Nat) (t : Token) : Branch g (.symbolOf table t)
  | symbolIdentifier (table : Nat) (leading trailing : CharClass) :
      Branch g (.symbolIdentifier table leading trailing)
  | choice (first second : Rule) : Branch g (.choice first second)
  | branch {condition : Rule} (rest : Rule) :
      Branch g condition → Branch g (.branch condition rest)
  | list {item : Rule} : Branch g item → Branch g (.list item)
  | noWhitespace {r : Rule} : Branch g r → Branch g (.noWhitespace r)
  | recover {r : Rule} : Branch g r → Branch g (.recover r)
  | production {n : Nat} : Branch g (g.production n).rule → Branch g (.production n)

/-- A rule is in another one, or in a production that it refers to; the rules that tokens are
made of do not count. -/
inductive Grammar.Contains (g : Grammar) : Rule → Rule → Prop where
  | refl (r : Rule) : Contains g r r
  | part {r s t : Rule} : s ∈ r.parts → Contains g s t → Contains g r t
  | production {n : Nat} {t : Rule} :
      Contains g (g.production n).rule t → Contains g (.production n) t
  | recurse {n : Nat} {t : Rule} :
      Contains g (g.production n).rule t → Contains g (.recurse n) t

theorem Grammar.Contains.of_branch {g : Grammar} {condition rest s : Rule}
    (h : g.Contains (.branch condition rest) (.recover s)) :
    g.Contains condition (.recover s) ∨ g.Contains rest (.recover s) := by
  cases h with
  | part hs h =>
    rcases List.mem_cons.1 hs with rfl | hs
    · exact .inl h
    · obtain rfl := List.mem_singleton.1 hs
      exact .inr h

/-- A parse fails at a position, whatever it reports. -/
def Parse.Fails (m : Parse α) (p : Nat) : Prop := ∃ q es, m p = .ok ⟨none, q, es⟩

namespace Parse.Fails

variable {α β : Type} {m : Parse α} {k : α → Parse β} {p q : Nat}

theorem bind (h : m.Fails p) : (m >>= k).Fails p := by
  obtain ⟨q, es, h⟩ := h
  exact ⟨q, es, Parse.bind_of_none h⟩

theorem of_bind {a : α} {es : List Event} (hm : m p = .ok ⟨some a, q, es⟩) (hk : (k a).Fails q) :
    (m >>= k).Fails p := by
  obtain ⟨r, fs, hk⟩ := hk
  exact ⟨r, es ++ fs, by rw [Parse.bind_of_some hm, hk]⟩

theorem between (h : m.Fails p) (before : Nat → Event) (after : Bool → Nat → Event) :
    (m.between before after).Fails p := by
  obtain ⟨q, es, h⟩ := h
  exact ⟨q, _, by rw [Parse.between, h]⟩

end Parse.Fails

namespace Environment

variable {env : Environment} {p stop : Nat} {scope : Scope}

theorem expectToken_fails {n : Nat} {t : Token} {f : TokenFailure} (hp : p ≤ env.stop)
    (h : env.matchToken (env.calls n) t p = .ok (.error f)) :
    (env.expectToken (env.calls n) t scope).Fails p := by
  obtain ⟨hstart, hrange, hread, hstop⟩ := EventLaw.within_of_matchToken hp h
  refine .of_bind (Parse.look_eq h) ?_
  exact .of_bind (reportFailure_eq scope (by omega) hstop) ⟨_, _, rfl⟩

/-- To expect a token that has been tried in vain is to fail. -/
theorem expectToken_bind_fails {n : Nat} {t : Token} {commitAt : Nat → Commit}
    {k : Nat → Parse Outputs} (hp : p ≤ env.stop)
    (h : (do
      match ← env.matchToken (env.calls n) t p with
      | .ok stop => return some (commitAt stop)
      | .error _ => return none) = Except.ok none) :
    (env.expectToken (env.calls n) t scope >>= k).Fails p := by
  rcases attemptToken_cases h with ⟨_, -, hc⟩ | ⟨f, hm, -⟩
  · cases hc
  · exact (expectToken_fails hp hm).bind

theorem refuseSymbol_fails (kind : TokenKind) (hstop : stop ≤ env.stop) :
    (env.refuseSymbol kind stop scope).Fails p :=
  .of_bind (m := Parse.position) rfl (.of_bind (passToken_eq kind hstop) ⟨_, _, rfl⟩)

theorem inProduction_fails {n : Nat} (production : Production) {body : Commit}
    (h : (body (scope.inside production)).Fails p) :
    (inProduction (env.calls n) production scope body).Fails p := by
  unfold inProduction
  split
  · exact .of_bind (m := Parse.position) rfl ⟨_, _, rfl⟩
  · exact (h.between _ _).bind

theorem exists_calls_of_attempt {n : Nat} {r : Rule} {commit? : Option Commit}
    (h : env.attempt n r p = .ok commit?) :
    ∃ k, env.attemptRule (env.calls k) r p = .ok commit? := by
  cases n with
  | zero => cases h
  | succ k =>
    rw [attempt_succ] at h
    exact ⟨k, h⟩

theorem map_none_cases {a : Attempt} {more : Commit → Commit}
    (h : (do return (← a p).map more) = Except.ok none) : a p = .ok none := by
  obtain ⟨first?, hfirst, hc⟩ := map_cases h
  rw [hfirst, Option.map_eq_none_iff.1 hc.symm]

/-- Where a branch does not apply, parsing it fails, unless a failure is recovered from. -/
theorem parse_fails_of_attempt {r : Rule} (hbranch : env.grammar.Branch r)
    (hrecover : ∀ s, ¬ env.grammar.Contains r (.recover s)) (hp : p ≤ env.stop) {n : Nat}
    (h : env.attempt n r p = .ok none) (scope : Scope) :
    ∃ m, (env.parse m r scope).Fails p := by
  -- The part that decides whether the rule applies is parsed first, and its failure is passed on.
  have hpart : ∀ {r s : Rule}, (∀ t, ¬ env.grammar.Contains r (.recover t)) → s ∈ r.parts →
      ∀ t, ¬ env.grammar.Contains s (.recover t) :=
    fun h hs t ht => h t (.part hs ht)
  induction hbranch generalizing n scope with
  | token t =>
    obtain ⟨k, h⟩ := exists_calls_of_attempt h
    refine ⟨k + 1, ?_⟩
    rw [parse_succ, parseRule]
    exact expectToken_bind_fails hp h
  | capture t =>
    obtain ⟨k, h⟩ := exists_calls_of_attempt h
    refine ⟨k + 1, ?_⟩
    rw [parse_succ, parseRule]
    exact expectToken_bind_fails hp h
  | integer type radix =>
    obtain ⟨k, h⟩ := exists_calls_of_attempt h
    refine ⟨k + 1, ?_⟩
    rw [parse_succ, parseRule]
    exact expectToken_bind_fails hp h
  | position =>
    obtain ⟨k, h⟩ := exists_calls_of_attempt h
    cases h
  | symbol table =>
    obtain ⟨k, h⟩ := exists_calls_of_attempt h
    have hnone : env.findSymbol table (env.cursor p) = none :=
      Option.map_eq_none_iff.1 (Except.ok.inj h)
    refine ⟨k + 1, ?_⟩
    rw [parse_succ, parseRule]
    refine .of_bind (Parse.look_eq (a := none) (by rw [hnone])) ?_
    exact .of_bind (m := Parse.position) rfl ⟨_, _, rfl⟩
  | symbolOf table t =>
    obtain ⟨k, h⟩ := exists_calls_of_attempt h
    refine ⟨k + 1, ?_⟩
    rw [parse_succ, parseRule]
    rcases symbolOf_cases h with ⟨f, hm, -⟩ | ⟨stop, v?, hm, hv, hc⟩
    · exact (expectToken_fails hp hm).bind
    · obtain rfl : v? = none := Option.map_eq_none_iff.1 hc.symm
      have hstop : stop ≤ env.stop := (EventLaw.within_of_matchToken hp hm).2
      refine .of_bind (expectToken_eq hm) (.of_bind (m := Parse.position) rfl ?_)
      rw [hv]
      exact .of_bind (Parse.lift_ok _ _) (refuseSymbol_fails t.kind hstop)
  | symbolIdentifier table leading trailing =>
    obtain ⟨k, h⟩ := exists_calls_of_attempt h
    obtain ⟨found, hfound, hc⟩ := symbolIdentifier_cases h
    obtain rfl : found = none := Option.map_eq_none_iff.1 hc.symm
    refine ⟨k + 1, ?_⟩
    rw [parse_succ, parseRule]
    refine .of_bind (m := Parse.position) rfl ?_
    rw [hfound]
    refine .of_bind (Parse.lift_ok _ _) ?_
    obtain ⟨m, hm, hwithin⟩ := Token.matchUnits?_within (c := env.cursor p) hp
      (.identifier leading trailing) (fun _ _ h => by cases h)
    have hmatch : env.matchToken (env.calls k) (.identifier leading trailing) p = .ok m := by
      unfold matchToken
      simp only [hm]
    cases m with
    | error f => exact (expectToken_fails hp hmatch).bind
    | ok stop => exact .of_bind (expectToken_eq hmatch) (refuseSymbol_fails _ hwithin.2)
  | choice _ _ =>
    refine ⟨n + 1, ?_⟩
    rw [parse_succ, parseRule]
    refine .of_bind (Parse.look_eq h) ?_
    exact .of_bind (m := Parse.position) rfl ⟨_, _, rfl⟩
  | branch rest _ ih =>
    obtain ⟨k, h⟩ := exists_calls_of_attempt h
    obtain ⟨m, hm⟩ := ih (hpart hrecover (by simp [Rule.parts])) (map_none_cases h) scope
    exact ⟨m + 1, hm.bind⟩
  | list _ ih =>
    obtain ⟨k, h⟩ := exists_calls_of_attempt h
    obtain ⟨m, hm⟩ := ih (hpart hrecover (by simp [Rule.parts])) (map_none_cases h) scope
    exact ⟨m + 1, hm.bind⟩
  | noWhitespace _ ih =>
    obtain ⟨k, h⟩ := exists_calls_of_attempt h
    obtain ⟨m, hm⟩ := ih (hpart hrecover (by simp [Rule.parts])) (map_none_cases h)
      scope.withoutAuto
    exact ⟨m + 1, hm.bind⟩
  | recover _ _ => exact absurd (.refl _) (hrecover _)
  | @production number _ ih =>
    obtain ⟨k, h⟩ := exists_calls_of_attempt h
    obtain ⟨m, hm⟩ := ih (fun s hs => hrecover s (.production hs)) (map_none_cases h)
      (scope.inside (env.grammar.production number))
    exact ⟨m + 1, inProduction_fails (n := m) _ hm⟩

/-- Where a rule applies, going on from the attempt ends with what parsing ends with: the
result, the events and the position.  Where a branch does not apply that contains no recovery,
parsing it ends with a failure. -/
theorem attempt_agrees (env : Environment) (n : Nat) (r : Rule) (p : Nat) :
    (∀ commit, env.attempt n r p = .ok (some commit) →
      ∀ scope x, env.FinishEnds r scope p x ↔ env.ParseEnds r scope p x) ∧
    (env.grammar.Branch r → (∀ s, ¬ env.grammar.Contains r (.recover s)) → p ≤ env.stop →
      env.attempt n r p = .ok none →
      ∀ scope, ∃ o, env.ParseEnds r scope p (.ok o) ∧ o.result = none) := by
  constructor
  · intro commit h scope x
    exact finishEnds_iff h x
  · intro hbranch hrecover hp h scope
    obtain ⟨m, q, es, hm⟩ := parse_fails_of_attempt hbranch hrecover hp h scope
    exact ⟨_, ⟨fun h => (by cases h), m, hm⟩, rfl⟩

/-- A letter and digits behind it: tried at the letter, and tried behind it. -/
theorem attempt_agrees_letter_digits :
    let env : Environment := ⟨⟨#[], #[]⟩, ⟨.ascii, #[0x61, 0x31], by decide⟩, 2⟩
    let r : Rule := .branch (.token (.charClass .alpha)) (.capture (.digits .decimal))
    (∃ commit o, env.attempt 2 r 0 = .ok (some commit) ∧ o.position = 2 ∧
      env.ParseEnds r .silent 0 (.ok o) ∧ env.FinishEnds r .silent 0 (.ok o)) ∧
    env.grammar.Branch r ∧ (∀ s, ¬ env.grammar.Contains r (.recover s)) ∧ 1 ≤ env.stop ∧
    env.attempt 2 r 1 = .ok none ∧
    ∃ o, env.ParseEnds r .silent 1 (.ok o) ∧ o.result = none := by
  intro env r
  have hattempt : (env.attempt 2 r).answers .silent 0 (·.position == 2) = true := by
    decide +kernel
  have hnone : (env.attempt 2 r 1).toOption.map Option.isSome = some false := by decide +kernel
  have hbranch : env.grammar.Branch r := .branch _ (.token _)
  have hrecover : ∀ s, ¬ env.grammar.Contains r (.recover s) := by
    intro s h
    rcases Grammar.Contains.of_branch h with h | h
    · cases h with
      | part hs _ => cases hs
    · cases h with
      | part hs _ => cases hs
  have hp : 1 ≤ env.stop := Nat.le_succ 1
  refine ⟨?_, hbranch, hrecover, hp, ?_⟩
  · obtain ⟨commit, o, hcommit, ho, hcheck⟩ := Attempt.exists_of_answers hattempt
    have hends : env.FinishEnds r .silent 0 (.ok o) :=
      ⟨fun h => (by cases h), 2, commit, hcommit, ho⟩
    exact ⟨commit, o, hcommit, beq_iff_eq.1 hcheck,
      ((env.attempt_agrees 2 r 0).1 commit hcommit .silent (.ok o)).1 hends, hends⟩
  · have hcommit : env.attempt 2 r 1 = .ok none := by
      cases h : env.attempt 2 r 1 with
      | error e =>
        rw [h] at hnone
        cases hnone
      | ok commit? =>
        rw [h] at hnone
        rw [Option.isNone_iff_eq_none.1 (Option.isSome_eq_false_iff.1 (Option.some.inj hnone))]
    exact ⟨hcommit, (env.attempt_agrees 2 r 1).2 hbranch hrecover hp hcommit .silent⟩

/-- With the placeholder as its condition a branch never applies, but parsing it goes on to
what follows the condition and may well succeed. -/
theorem branch_never_parses :
    let env : Environment := ⟨⟨#[], #[]⟩, ⟨.utf8, #[0x61], by decide⟩, 1⟩
    let r : Rule := .branch .never (.token (.charClass .alpha))
    env.grammar.isBranch r = true ∧ r ≠ .never ∧
    (∀ s, ¬ env.grammar.Contains r (.recover s)) ∧ 0 ≤ env.stop ∧
    env.attempt 2 r 0 = .ok none ∧
    ∃ o, env.ParseEnds r .silent 0 (.ok o) ∧ o.result.isSome ∧ o.position = 1 := by
  intro env r
  have hrun : (env.parse 2 r .silent).answers 0 (fun o =>
      o.result.isSome && o.position == 1) = true := by decide +kernel
  obtain ⟨o, ho, hcheck⟩ := Parse.exists_of_answers hrun
  rw [Bool.and_eq_true, beq_iff_eq] at hcheck
  refine ⟨by decide +kernel, Rule.noConfusion, ?_, Nat.zero_le 1, rfl, o,
    ⟨fun h => (by cases h), 2, ho⟩, hcheck⟩
  intro s h
  rcases Grammar.Contains.of_branch h with h | h
  · cases h with
    | part hs _ => cases hs
  · cases h with
    | part hs _ => cases hs

end Environment

end Phrase
