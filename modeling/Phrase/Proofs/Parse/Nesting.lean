import Phrase.Proofs.Parse.ComparisonRule

/-!
# Nesting, counted

How deep productions are nested is kept in the scope, which many rules rebuild.  Here it is
counted by an interpreter of its own: its calls are made for a `Nesting`, which holds no more
productions than there may be, and only a production that it enters adds one to it.  The scopes
that it hands on set no limit.

Both interpreters answer the same (`Environment.parse_eq_nested`), as long as the nesting of a
token is counted as the rule that makes it is parsed: from zero on, and up to a limit of its
own.  Where tokens enter no production it does not matter how theirs is counted.
-/

namespace Phrase

/-! ## Nesting -/

/-- How many productions are inside one another, and how many may be; zero sets no limit. -/
structure Nesting where
  level : Nat
  limit : Nat
  /-- There are never more than there may be. -/
  bounded : limit = 0 ∨ level ≤ limit

namespace Nesting

/-- Outside of all productions. -/
def outer (limit : Nat) : Nesting := ⟨0, limit, .inr (Nat.zero_le limit)⟩

/-- Whether there is no room for another production. -/
def IsFull (ν : Nesting) : Prop := ν.limit ≠ 0 ∧ ν.level = ν.limit

instance (ν : Nesting) : Decidable ν.IsFull := inferInstanceAs (Decidable (_ ∧ _))

/-- Inside of one more production, if there is room for it. -/
def deeper (ν : Nesting) : Nesting :=
  if h : ν.IsFull then ν
  else ⟨ν.level + 1, ν.limit, by
    have := ν.bounded
    unfold IsFull at h
    omega⟩

/-- How the rule of a token is parsed: from zero on, whatever the token is inside of. -/
def restart : Nesting → Nesting := fun _ => outer Scope.defaultMaxDepth

end Nesting

namespace Environment

variable (env : Environment) (inToken : Nesting → Nesting)

/-! ## The counting interpreter -/

/-- Enters a production if there is room for it, and refuses it otherwise. -/
def enterNested (calls : Calls) (ν : Nesting) (p : Production) (scope : Scope) (body : Commit) :
    Parse Outputs :=
  if ν.IsFull then do
    let position ← Parse.position
    report scope (.recursionLimit ν.limit) ⟨position, position⟩
    Parse.fail
  else inProduction calls p scope body

/-- The calls for a rule: a rule inside of a token is parsed with the nesting of the token. -/
def nestedCallsFor (calls : Nesting → Calls) (ν : Nesting) (r : Rule) : Calls :=
  if r.isToken then
    { calls ν with parse := fun t scope => (calls (inToken ν)).parse t { scope with maxDepth := 0 } }
  else calls ν

/-- Parses a rule inside of as many productions. -/
def nestedRule (calls : Nesting → Calls) (ν : Nesting) (r : Rule) (scope : Scope) :
    Parse Outputs :=
  match r with
  | .production n | .recurse n =>
    let p := env.grammar.production n
    enterNested (calls ν) ν p scope ((calls ν.deeper).parse p.rule)
  | r => env.parseRule (nestedCallsFor inToken calls ν r) r scope

/-- Tries a rule inside of as many productions.  A production counts for what is tried inside of
it; it is entered only when parsing goes on. -/
def nestedAttempt (calls : Nesting → Calls) (ν : Nesting) (r : Rule) : Attempt := fun position =>
  match r with
  | .production n => do
    let p := env.grammar.production n
    return (← (calls ν.deeper).attempt p.rule position).map fun commit scope =>
      enterNested (calls ν) ν p scope commit
  | r => env.attemptRule (nestedCallsFor inToken calls ν r) r position

/-- What the rules inside of a rule do with this much fuel, inside of as many productions. -/
def nestedCalls : Nat → Nesting → Calls
  | 0, _ => ⟨fun _ _ => .halt .exhausted, fun _ _ => .error .exhausted, 0⟩
  | fuel + 1, ν =>
    ⟨env.nestedRule inToken (nestedCalls fuel) ν, env.nestedAttempt inToken (nestedCalls fuel) ν,
      fuel + 1⟩

end Environment

/-! ## Rules without productions -/

/-- Whether a rule refers to a production. -/
def Rule.isReference : Rule → Bool
  | .production _ | .recurse _ => true
  | _ => false

/-- A rule that refers to no production, in its tokens neither. -/
def Rule.Closed (r : Rule) : Prop := ∀ s ∈ r.inside, s.isReference = false

/-- It does not matter how nesting is counted in the tokens of a rule: it is counted as they are
parsed, or they enter no production. -/
def Rule.TokensCount (inToken : Nesting → Nesting) (r : Rule) : Prop :=
  ∀ s ∈ r.inside, ∀ t kind, s.token? = some (.rule t kind) →
    inToken = Nesting.restart ∨ t.Closed

namespace Rule

variable {inToken : Nesting → Nesting} {r s : Rule}

theorem Closed.part (h : r.Closed) (hs : s ∈ r.parts) : s.Closed :=
  fun t ht => h t (mem_inside_of_part hs ht)

theorem TokensCount.part (h : r.TokensCount inToken) (hs : s ∈ r.parts) :
    s.TokensCount inToken :=
  fun t ht => h t (mem_inside_of_part hs ht)

theorem TokensCount.token {kind : TokenKind} (h : r.TokensCount inToken)
    (hs : r.token? = some (.rule s kind)) : s.TokensCount inToken :=
  fun t ht => h t (mem_inside_of_token hs ht)

end Rule

/-! ## The comparison -/

/-- What the rules of a scope are known to do: to keep how nesting is counted in tokens. -/
structure Scope.Counts (inToken : Nesting → Nesting) (ν : Nesting) (r : Rule) (s : Scope) :
    Prop where
  tokens : r.TokensCount inToken
  whitespace : ∀ w, s.whitespace = some w → w.TokensCount inToken
  /-- The scope knows the nesting, or no production is entered in it. -/
  nesting : s.depth = ν.level ∧ s.maxDepth = ν.limit ∨
    r.Closed ∧ ∀ w, s.whitespace = some w → w.Closed

/-- A run that keeps nesting in the scope tells of the one that counts it. -/
def Comparison.nested (inToken : Nesting → Nesting) (ν : Nesting) : Comparison where
  Halts _ := False
  Spoils _ := False
  halts h := h.elim
  Admits r s s' := s.Counts inToken ν r ∧ s' = { s with maxDepth := 0 }
  scopes h := ⟨0, h.2⟩
  part := by
    rintro r t s _ ⟨h, rfl⟩ ht
    exact ⟨⟨h.tokens.part ht, h.whitespace, h.nesting.imp_right (And.imp_left (·.part ht))⟩, rfl⟩
  whitespace := by
    rintro r w s _ ⟨h, rfl⟩ hw
    exact ⟨⟨h.whitespace w hw, h.whitespace, h.nesting.imp_right fun h => ⟨h.2 w hw, h.2⟩⟩, rfl⟩
  withoutAuto := by
    rintro r s _ ⟨h, rfl⟩
    exact ⟨⟨h.tokens, h.whitespace, h.nesting⟩, rfl⟩
  insideWhitespace := by
    rintro r s _ ⟨h, rfl⟩
    exact ⟨⟨h.tokens, fun _ hw => (by cases hw), h.nesting.imp_right fun h =>
      ⟨h.1, fun _ hw => (by cases hw)⟩⟩, rfl⟩

namespace Environment

open Comparison Excuse

variable {env : Environment} {inToken : Nesting → Nesting} {ν : Nesting} {r : Rule}
  {s s' : Scope} {p n : Nat}

/-- What is compared at a nesting: the calls of the one interpreter, and of the other one. -/
def AgreesNested (env : Environment) (inToken : Nesting → Nesting) (n : Nat) (ν : Nesting) : Prop :=
  (nested inToken ν).Skips (env.calls n) (env.nestedCalls inToken n ν) ∧
    (nested inToken ν).Parses (env.calls n) (env.nestedCalls inToken n ν)

/-- Some scope knows the nesting. -/
theorem admits_nested (ν : Nesting) (hr : r.TokensCount inToken) :
    ∃ s s', (nested inToken ν).Admits r s s' :=
  ⟨{ Scope.silent with depth := ν.level, maxDepth := ν.limit }, _,
    ⟨hr, fun _ hw => (by cases hw), .inl ⟨rfl, rfl⟩⟩, rfl⟩

/-- The rule of a token is parsed from zero on, or enters no production. -/
theorem matches_nested (h : ∀ ν, env.AgreesNested inToken n ν) (htoken : r.isToken)
    (hr : r.TokensCount inToken) :
    (nested inToken ν).Matches r (env.calls n)
      (nestedCallsFor inToken (env.nestedCalls inToken n) ν r) := by
  intro t kind ht p
  have hadmits : (nested inToken (inToken ν)).Admits t .silent
      { Scope.silent with maxDepth := 0 } := by
    refine ⟨⟨hr.token ht, fun _ hw => (by cases hw), ?_⟩, rfl⟩
    rcases hr r r.mem_inside_self t kind ht with hrestart | hclosed
    · rw [hrestart]
      exact .inl ⟨rfl, rfl⟩
    · exact .inr ⟨hclosed, fun _ hw => (by cases hw)⟩
  rw [nestedCallsFor, if_pos htoken]
  exact ((h (inToken ν)).2 hadmits p).tells fun _ he => he

theorem skips_nestedCallsFor (h : env.AgreesNested inToken n ν) (r : Rule) :
    (nested inToken ν).Skips (env.calls n)
      (nestedCallsFor inToken (env.nestedCalls inToken n) ν r) := by
  unfold nestedCallsFor
  split
  · exact ⟨h.1.attempt, h.1.fuel⟩
  · exact h.1

/-- The rule and the whitespace of every production keep how nesting is counted. -/
def TokensCount (env : Environment) (inToken : Nesting → Nesting) : Prop :=
  ∀ n, (env.grammar.production n).rule.TokensCount inToken ∧
    ∀ w, (env.grammar.production n).whitespace = some w → w.TokensCount inToken

/-- A production knows how deep it is nested. -/
theorem nesting_of_admits {k : Nat}
    (hr : (nested inToken ν).Admits (.production k) s s' ∨
      (nested inToken ν).Admits (.recurse k) s s') :
    (s.depth = ν.level ∧ s.maxDepth = ν.limit) ∧ s' = { s with maxDepth := 0 } ∧
      ∀ w, s.whitespace = some w → w.TokensCount inToken := by
  rcases hr with ⟨h, hs⟩ | ⟨h, hs⟩
  · refine ⟨h.nesting.resolve_right ?_, hs, h.whitespace⟩
    exact fun hclosed => nomatch hclosed.1 _ (Rule.mem_inside_self _)
  · refine ⟨h.nesting.resolve_right ?_, hs, h.whitespace⟩
    exact fun hclosed => nomatch hclosed.1 _ (Rule.mem_inside_self _)

/-- A production with room for it is entered, and its rule is parsed one level deeper. -/
theorem admits_inside (hg : env.TokensCount inToken) {k : Nat} (hν : ¬ ν.IsFull)
    (hr : (nested inToken ν).Admits (.production k) s s' ∨
      (nested inToken ν).Admits (.recurse k) s s') :
    (nested inToken ν.deeper).Admits (env.grammar.production k).rule
      (s.inside (env.grammar.production k)) (s'.inside (env.grammar.production k)) := by
  obtain ⟨⟨hdepth, hlimit⟩, rfl, hwhitespace⟩ := nesting_of_admits hr
  obtain ⟨hrule, hown⟩ := hg k
  have hdeeper : ν.deeper.level = ν.level + 1 ∧ ν.deeper.limit = ν.limit := by
    rw [Nesting.deeper, dif_neg hν]
    exact ⟨rfl, rfl⟩
  refine ⟨⟨hrule, fun w hw => ?_, .inl ⟨?_, ?_⟩⟩, rfl⟩
  · have hfrom : (env.grammar.production k).whitespace = some w ∨ s.whitespace = some w := by
      unfold Scope.inside at hw
      simp only at hw
      split at hw
      · exact .inl hw
      · exact (Option.or_eq_some_iff.1 hw).imp_right And.right
    exact hfrom.elim (hown w) (hwhitespace w)
  · rw [hdeeper.1, ← hdepth]
    rfl
  · rw [hdeeper.2, ← hlimit]
    rfl

theorem enterNested_agrees (h : env.AgreesNested inToken n ν) {k : Nat} {body body' : Commit}
    (hr : (nested inToken ν).Admits (.production k) s s' ∨
      (nested inToken ν).Admits (.recurse k) s s')
    (hbody : ¬ ν.IsFull → (nested inToken ν).Agree
      (body (s.inside (env.grammar.production k))) (body' (s'.inside (env.grammar.production k)))
      p) :
    (nested inToken ν).Agree (inProduction (env.calls n) (env.grammar.production k) s body)
      (enterNested (env.nestedCalls inToken n ν) ν (env.grammar.production k) s' body') p := by
  obtain ⟨⟨hdepth, hlimit⟩, rfl, -⟩ := nesting_of_admits hr
  have hrefuses : s.Refuses ↔ ν.IsFull := by
    have := ν.bounded
    unfold Scope.Refuses Nesting.IsFull
    omega
  unfold enterNested
  by_cases hν : ν.IsFull
  · rw [inProduction_of_refuses (hrefuses.2 hν), if_pos hν, hlimit]
    exact .refl _ p
  · rw [if_neg hν]
    rcases hr with hr | hr <;>
      exact inProduction_foretells h.1 _ hr (fun hs => hν (hrefuses.1 hs)) (fun hs => hs.1 rfl)
        (hbody hν)

theorem nestedRule_agrees (hg : env.TokensCount inToken) (h : ∀ ν, env.AgreesNested inToken n ν)
    (hr : (nested inToken ν).Admits r s s') :
    (nested inToken ν).Agree (env.parseRule (env.calls n) r s)
      (env.nestedRule inToken (env.nestedCalls inToken n) ν r s') p := by
  by_cases htoken : r.isToken
  · have hrule := env.parseToken_foretells (p := p)
      (skips_nestedCallsFor (h ν) r) (matches_nested h htoken hr.1.tokens) htoken hr
    cases r with
    | production k | recurse k => cases htoken
    | _ => exact hrule
  · cases r with
    | production k =>
      exact enterNested_agrees (h ν) (.inl hr) fun hν =>
        (h ν.deeper).2 (admits_inside hg hν (.inl hr)) p
    | recurse k =>
      exact enterNested_agrees (h ν) (.inr hr) fun hν =>
        (h ν.deeper).2 (admits_inside hg hν (.inr hr)) p
    | token | capture | integer | symbol | symbolOf | symbolIdentifier => exact absurd rfl htoken
    | _ =>
      exact parseRule_foretells (h ν).1 (h ν).2 htoken
        (fun _ => ⟨Rule.noConfusion, Rule.noConfusion⟩) hr

theorem nestedAttempt_agrees (hg : env.TokensCount inToken)
    (h : ∀ ν, env.AgreesNested inToken n ν) (hr : (nested inToken ν).Admits r s s') :
    (nested inToken ν).Attempts r (env.attemptRule (env.calls n) r)
      (env.nestedAttempt inToken (env.nestedCalls inToken n) ν r) p := by
  by_cases htoken : r.isToken
  · have hrule := env.attemptOneToken_foretells (p := p)
      (skips_nestedCallsFor (h ν) r) (matches_nested h htoken hr.1.tokens) htoken
    cases r with
    | production k => cases htoken
    | _ => exact hrule
  · cases r with
    | production k =>
      obtain ⟨t, t', ht⟩ := admits_nested ν.deeper (hg k).1
      refine map_foretells ((h ν.deeper).1.attempt ht p) ?_
      intro c c' hc s s' hr q
      exact enterNested_agrees (h ν) (.inl hr) fun hν => hc (admits_inside hg hν (.inl hr)) q
    | token | capture | integer | symbol | symbolOf | symbolIdentifier => exact absurd rfl htoken
    | _ => exact attemptRule_foretells (h ν).1 (h ν).2 htoken (fun _ => Rule.noConfusion) hr

/-- The interpreter that counts nesting agrees with the one that keeps it in the scope. -/
theorem agrees_nested (hg : env.TokensCount inToken) (n : Nat) (ν : Nesting) :
    env.AgreesNested inToken n ν := by
  induction n generalizing ν with
  | zero => exact ⟨⟨fun _ _ => .error _, .inl rfl⟩, fun _ _ => .error _⟩
  | succ n ih =>
    exact ⟨⟨fun hr _ => nestedAttempt_agrees hg ih hr, .inl rfl⟩,
      fun hr _ => nestedRule_agrees hg ih hr⟩

theorem parse_eq_nested (hg : env.TokensCount inToken)
    (hr : (nested inToken ν).Admits r s s') (n p : Nat) :
    env.parse n r s p = (env.nestedCalls inToken n ν).parse r s' p := by
  refine (((agrees_nested hg n ν).2 hr p).eq rfl fun hvoid => ?_).symm
  -- No answer is void: this comparison excuses nothing.
  change (nested inToken ν).Void (env.parse n r s p) at hvoid
  cases henv : env.parse n r s p with
  | error h =>
    rw [henv] at hvoid
    exact hvoid
  | ok o =>
    rw [henv] at hvoid
    obtain ⟨_, -, he⟩ := hvoid
    exact he

end Environment

end Phrase
