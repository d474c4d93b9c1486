import Phrase.Proofs.Parse.Comparison

/-!
# Rules that foretell themselves

If what the rules inside of a rule do with some calls foretells what they do with others, so it
is for the rule, whether it is parsed or goes on from an attempt.  Productions stand apart:
whether they are entered depends on how deep they may be nested.
-/

namespace Phrase

/-- Whether a rule makes one token itself. -/
def Rule.isToken : Rule → Bool
  | .token _ | .capture _ | .integer _ _ | .symbol _ | .symbolOf _ _
  | .symbolIdentifier _ _ _ => true
  | _ => false

/-- Whether a production is too deep to be entered. -/
def Scope.Refuses (s : Scope) : Prop := s.maxDepth ≠ 0 ∧ s.maxDepth < s.depth + 1

namespace Environment

open Comparison Excuse

variable {env : Environment} {cmp : Comparison} {calls calls' : Calls} {r : Rule}
  {s s' : Scope} {p : Nat} {β : Type} {S : β → β → Prop}

/-! ## Whitespace -/

section
variable (h : cmp.Skips calls calls')

include h

/-- Trying a rule and going on with what comes of it. -/
theorem attempt_bind_foretells (hr : cmp.Admits r s s') {k k' : Option Commit → Parse β}
    (hnone : ∀ q, cmp.Foretells S (k none) (k' none) q)
    (hsome : ∀ c c' q, cmp.Commits r c c' → cmp.Foretells S (k (some c)) (k' (some c')) q) :
    cmp.Foretells S (Parse.look (calls.attempt r) >>= k)
      (Parse.look (calls'.attempt r) >>= k') p := by
  apply Foretells.bind (Foretells.look (h.attempt hr p))
  intro c? c?' q hc
  cases hc with
  | none => exact hnone q
  | some hc => exact hsome _ _ q hc

theorem skipBranch_foretells (hr : cmp.Admits r s s') :
    cmp.Foretells Eq (skipBranch calls r s) (skipBranch calls' r s') p := by
  apply Foretells.iterate ?_ h.fuel
  intro _ q
  refine attempt_bind_foretells h hr (fun q => .refl _ q) ?_
  intro c c' q hc
  apply Foretells.bind_eq (.refl _ q)
  intro before q
  apply Foretells.bind_eq (hc hr q)
  intro _ q
  exact .refl _ q

theorem skipWith_foretells (hr : cmp.Admits r s s') :
    cmp.Foretells Eq (skipWith calls r s) (skipWith calls' r s') p :=
  (skipBranch_foretells h (cmp.insideWhitespace hr)).asOneToken _

theorem skipScopeWhitespace_foretells (hr : cmp.Admits r s s') :
    cmp.Foretells Eq (skipScopeWhitespace calls s) (skipScopeWhitespace calls' s') p := by
  have hskip := fun w hw => skipWith_foretells h (cmp.whitespace hr (w := w) hw) (p := p)
  obtain ⟨_, rfl⟩ := cmp.scopes hr
  unfold skipScopeWhitespace
  simp only
  split
  · next w hw => exact hskip w hw
  · exact .refl _ p

theorem skipWhitespace_foretells (hr : cmp.Admits r s s') :
    cmp.Foretells Eq (skipWhitespace calls s) (skipWhitespace calls' s') p := by
  have hskip := skipScopeWhitespace_foretells h hr (p := p)
  obtain ⟨_, rfl⟩ := cmp.scopes hr
  unfold skipWhitespace
  simp only
  split
  · exact hskip
  · exact .refl _ p

/-! ## Tokens -/

theorem finishToken_foretells (env : Environment) (kind : TokenKind) (stop : Nat)
    (hr : cmp.Admits r s s') :
    cmp.Foretells Eq (env.finishToken calls kind stop s) (env.finishToken calls' kind stop s')
      p := by
  apply Foretells.bind_eq (.refl _ p)
  intro _ q
  exact skipWhitespace_foretells h hr

theorem commitToken_foretells (t : Token) (stop : Nat) :
    cmp.Commits r (env.commitToken calls t stop) (env.commitToken calls' t stop) := by
  intro s s' hr p
  apply Foretells.bind_eq (env.finishToken_foretells h t.kind stop hr)
  intro _ q
  exact .refl _ q

theorem commitCapture_foretells (t : Token) (stop : Nat) :
    cmp.Commits r (env.commitCapture calls t stop) (env.commitCapture calls' t stop) := by
  intro s s' hr p
  apply Foretells.bind_eq (.refl _ p)
  intro begin q
  apply Foretells.bind_eq (env.finishToken_foretells h t.kind stop hr)
  intro _ q
  exact .refl _ q

theorem commitInteger_foretells (type : IntegerType) (radix : Radix) (stop : Nat) :
    cmp.Commits r (env.commitInteger calls type radix stop)
      (env.commitInteger calls' type radix stop) := by
  intro s s' hr p
  have hfinish := fun q => env.finishToken_foretells h .digits stop hr (p := q)
  obtain ⟨_, rfl⟩ := cmp.scopes hr
  apply Foretells.bind_eq (.refl _ p)
  intro begin q
  apply Foretells.bind_eq (.refl _ q)
  intro digits q
  split
  · apply Foretells.bind_eq (hfinish q)
    intro _ q
    exact .refl _ q
  · exact .refl _ q

theorem commitSymbol_foretells (env : Environment) (kind : TokenKind) (v : Value) (stop : Nat) :
    cmp.Commits r (env.commitSymbol calls kind v stop) (env.commitSymbol calls' kind v stop) := by
  intro s s' hr p
  apply Foretells.bind_eq (env.finishToken_foretells h kind stop hr)
  intro _ q
  exact .refl _ q

end

/-- A rule used as a token reaches as far as it does when it is parsed. -/
theorem matchToken_rule (t : Rule) (kind : TokenKind) :
    env.matchToken calls (.rule t kind) p = (do
      let o ← calls.parse t .silent p
      match o.result with
      | some _ => return .ok o.position
      | none => return .error ⟨o.position, .missingToken, ⟨p, o.position⟩⟩) := by
  unfold matchToken
  simp only
  cases calls.parse t .silent p <;> rfl

section
variable (hmatch : cmp.Matches r calls calls')

include hmatch

theorem matchToken_foretells {t : Token} (ht : r.token? = some t) :
    Tells cmp.Halted Eq (env.matchToken calls t p) (env.matchToken calls' t p) := by
  cases t with
  | rule t kind =>
    rw [matchToken_rule, matchToken_rule]
    exact tells_bind (hmatch t kind ht p) fun o o' ho => ho ▸ Tells.refl (fun _ => rfl) _
  | _ => exact Tells.refl (fun _ => rfl) _

theorem expectToken_foretells (env : Environment) {t : Token} (ht : r.token? = some t)
    (hr : cmp.Admits r s s') :
    cmp.Foretells Eq (env.expectToken calls t s) (env.expectToken calls' t s') p := by
  obtain ⟨_, rfl⟩ := cmp.scopes hr
  apply Foretells.bind_eq (Foretells.look (matchToken_foretells hmatch ht))
  intro m q
  exact .refl _ q

end

/-- A rule that makes one token. -/
theorem parseToken_foretells (env : Environment) (h : cmp.Skips calls calls')
    (hmatch : cmp.Matches r calls calls') (htoken : r.isToken) (hr : cmp.Admits r s s') :
    cmp.Agree (env.parseRule calls r s) (env.parseRule calls' r s') p := by
  have hexpect := fun t ht q => env.expectToken_foretells hmatch (t := t) ht hr (p := q)
  have hsymbol := fun kind v stop q =>
    env.commitSymbol_foretells h (r := r) kind v stop hr q
  cases r with
  | token t =>
    apply Foretells.bind_eq (hexpect t rfl p)
    intro stop q
    exact commitToken_foretells h t stop hr q
  | capture t =>
    apply Foretells.bind_eq (hexpect t rfl p)
    intro stop q
    exact commitCapture_foretells h t stop hr q
  | integer type radix =>
    apply Foretells.bind_eq (hexpect (.digits radix) rfl p)
    intro stop q
    exact commitInteger_foretells h type radix stop hr q
  | symbol table =>
    obtain ⟨_, rfl⟩ := cmp.scopes hr
    apply Foretells.bind_eq (.refl _ p)
    intro found q
    split
    · exact hsymbol _ _ _ q
    · exact .refl _ q
  | symbolOf table t =>
    apply Foretells.bind_eq (hexpect t rfl p)
    obtain ⟨_, rfl⟩ := cmp.scopes hr
    intro stop q
    apply Foretells.bind_eq (.refl _ q)
    intro position q
    apply Foretells.bind_eq (.refl _ q)
    intro found q
    split
    · exact hsymbol _ _ _ q
    · exact .refl _ q
  | symbolIdentifier table leading trailing =>
    apply Foretells.bind_eq (.refl _ p)
    intro position q
    apply Foretells.bind_eq (.refl _ q)
    intro found q
    split
    · exact hsymbol _ _ _ q
    · apply Foretells.bind_eq (hexpect _ rfl q)
      obtain ⟨_, rfl⟩ := cmp.scopes hr
      intro stop q
      exact .refl _ q
  | _ => cases htoken

/-! ## Sequences and repetition -/

section
variable (h : cmp.Skips calls calls') (hparse : cmp.Parses calls calls')

include h hparse

omit h in
theorem andThen_foretells {first first' : Parse Outputs} (hfirst : cmp.Agree first first' p)
    (hr : cmp.Admits r s s') :
    cmp.Agree (andThen calls first r s) (andThen calls' first' r s') p := by
  apply Foretells.bind_eq hfirst
  intro outputs q
  apply Foretells.bind_eq (hparse hr q)
  intro _ q
  exact .refl _ q

omit hparse in
theorem thenSkip_foretells {first first' : Parse Outputs} (hfirst : cmp.Agree first first' p)
    (hr : cmp.Admits r s s') :
    cmp.Agree (thenSkip calls first s) (thenSkip calls' first' s') p := by
  apply Foretells.bind_eq hfirst
  intro outputs q
  apply Foretells.bind_eq (skipWhitespace_foretells h hr)
  intro _ q
  exact .refl _ q

omit hparse in
theorem moreItems_foretells (hr : cmp.Admits r s s') (c : Container) :
    cmp.Foretells Eq (moreItems calls r s c) (moreItems calls' r s' c) p := by
  obtain ⟨_, rfl⟩ := cmp.scopes hr
  apply Foretells.iterate ?_ h.fuel
  intro c q
  refine attempt_bind_foretells h hr (fun q => .refl _ q) ?_
  intro commit commit' q hcommit
  apply Foretells.bind_eq (.refl _ q)
  intro before q
  apply Foretells.bind_eq (hcommit hr q)
  intro outputs q
  exact .refl _ q

omit hparse in
theorem listFrom_foretells {first first' : Parse Outputs} (hfirst : cmp.Agree first first' p)
    (hr : cmp.Admits r s s') :
    cmp.Agree (listFrom calls r s first) (listFrom calls' r s' first') p := by
  have hmore := fun c q => moreItems_foretells h hr c (p := q)
  obtain ⟨_, rfl⟩ := cmp.scopes hr
  apply Foretells.bind_eq hfirst
  intro outputs q
  apply Foretells.bind_eq (hmore _ q)
  intro c q
  exact .refl _ q

theorem separatedItems_foretells {separator : Rule} (hr : cmp.Admits r s s')
    (hseparator : cmp.Admits separator s s') (c : Container) :
    cmp.Foretells Eq (separatedItems calls r separator s c)
      (separatedItems calls' r separator s' c) p := by
  obtain ⟨_, rfl⟩ := cmp.scopes hr
  apply Foretells.iterate ?_ h.fuel
  intro c q
  refine attempt_bind_foretells h hseparator (fun q => .refl _ q) ?_
  intro commit commit' q hcommit
  apply Foretells.bind_eq (hcommit hseparator q)
  intro _ q
  apply Foretells.bind_eq (hparse hr q)
  intro outputs q
  exact .refl _ q

omit hparse in
theorem trailedItems_foretells {separator : Rule} (hr : cmp.Admits r s s')
    (hseparator : cmp.Admits separator s s') (c : Container) :
    cmp.Foretells Eq (trailedItems calls r separator s c)
      (trailedItems calls' r separator s' c) p := by
  obtain ⟨_, rfl⟩ := cmp.scopes hr
  apply Foretells.iterate ?_ h.fuel
  intro c q
  refine attempt_bind_foretells h hseparator (fun q => .refl _ q) ?_
  intro commit commit' q hcommit
  apply Foretells.bind_eq (hcommit hseparator q)
  intro _ q
  refine attempt_bind_foretells h hr (fun q => .refl _ q) ?_
  intro commit commit' q hcommit
  apply Foretells.bind_eq (hcommit hr q)
  intro outputs q
  exact .refl _ q

/-! ## Productions -/

omit h hparse in
theorem inProduction_of_refuses (hs : s.Refuses) (production : Production) (body : Commit) :
    inProduction calls production s body = (do
      let position ← Parse.position
      report s (.recursionLimit s.maxDepth) ⟨position, position⟩
      Parse.fail) := if_pos hs

omit h hparse in
theorem inProduction_of_not_refuses (hs : ¬ s.Refuses) (production : Production)
    (body : Commit) :
    inProduction calls production s body = (do
      let outputs ← (body (s.inside production)).between (.start production.name)
        (.close production.name)
      skipWhitespace calls s
      return [production.value.call s.state outputs]) := if_neg hs

omit hparse in
/-- A production that is entered in both scopes. -/
theorem inProduction_foretells (production : Production) {body body' : Commit}
    (hr : cmp.Admits r s s') (hs : ¬ s.Refuses) (hs' : ¬ s'.Refuses)
    (hbody : cmp.Agree (body (s.inside production)) (body' (s'.inside production)) p) :
    cmp.Agree (inProduction calls production s body) (inProduction calls' production s' body')
      p := by
  have hskip := fun q => skipWhitespace_foretells h hr (p := q)
  obtain ⟨_, rfl⟩ := cmp.scopes hr
  rw [inProduction_of_not_refuses hs, inProduction_of_not_refuses hs']
  apply Foretells.bind_eq (hbody.between _ _)
  intro outputs q
  apply Foretells.bind_eq (hskip q)
  intro _ q
  exact .refl _ q

omit hparse in
/-- A production in the same scope: both runs enter it, or neither does. -/
theorem inProduction_foretells_same (production : Production) {body body' : Commit}
    (hr : cmp.Admits r s s)
    (hbody : cmp.Agree (body (s.inside production)) (body' (s.inside production)) p) :
    cmp.Agree (inProduction calls production s body) (inProduction calls' production s body') p := by
  by_cases hs : s.Refuses
  · rw [inProduction_of_refuses hs, inProduction_of_refuses hs]
    exact .refl _ p
  · exact inProduction_foretells h production hr hs hs hbody

/-! ## All rules -/

/-- A rule that neither makes a token itself nor refers to a production. -/
theorem parseRule_foretells (htoken : ¬ r.isToken)
    (hproduction : ∀ n, r ≠ .production n ∧ r ≠ .recurse n) (hr : cmp.Admits r s s') :
    cmp.Agree (env.parseRule calls r s) (env.parseRule calls' r s') p := by
  have hpart : ∀ {t}, t ∈ r.parts → cmp.Admits t s s' := cmp.part hr
  have hpush := cmp.scopes hr
  cases r with
  | token | capture | integer | symbol | symbolOf | symbolIdentifier => exact absurd rfl htoken
  | production n => exact absurd rfl (hproduction n).1
  | recurse n => exact absurd rfl (hproduction n).2
  | position | never | fail | warn | context | emit =>
    obtain ⟨_, rfl⟩ := hpush
    exact .refl _ p
  | seq first second | branch first second =>
    exact andThen_foretells hparse (hparse (hpart (by simp [Rule.parts])) p)
      (hpart (by simp [Rule.parts]))
  | choice first second =>
    obtain ⟨_, rfl⟩ := hpush
    refine attempt_bind_foretells h hr (fun q => .refl _ q) ?_
    intro commit commit' q hcommit
    exact hcommit hr q
  | opt r =>
    refine attempt_bind_foretells h (hpart (by simp [Rule.parts])) (fun q => .refl _ q) ?_
    intro commit commit' q hcommit
    exact hcommit (hpart (by simp [Rule.parts])) q
  | list item =>
    have hitem := hpart (t := item) (by simp [Rule.parts])
    exact listFrom_foretells h (hparse hitem p) hitem
  | listOpt item =>
    have hitem := hpart (t := item) (by simp [Rule.parts])
    have hmore := fun c => moreItems_foretells h hitem c (p := p)
    obtain ⟨_, rfl⟩ := hpush
    apply Foretells.bind_eq (hmore _)
    intro c q
    exact .refl _ q
  | listSep item separator =>
    have hitem := hpart (t := item) (by simp [Rule.parts])
    have hseparator := hpart (t := separator) (by simp [Rule.parts])
    have hmore := fun c q => separatedItems_foretells h hparse hitem hseparator c (p := q)
    obtain ⟨_, rfl⟩ := hpush
    apply Foretells.bind_eq (hparse hitem p)
    intro outputs q
    apply Foretells.bind_eq (hmore _ q)
    intro c q
    exact .refl _ q
  | listTrailing item separator =>
    have hitem := hpart (t := item) (by simp [Rule.parts])
    have hseparator := hpart (t := separator) (by simp [Rule.parts])
    have hmore := fun c q => trailedItems_foretells h hitem hseparator c (p := q)
    obtain ⟨_, rfl⟩ := hpush
    apply Foretells.bind_eq (hparse hitem p)
    intro outputs q
    apply Foretells.bind_eq (hmore _ q)
    intro c q
    exact .refl _ q
  | times count item =>
    have hitem := hpart (t := item) (by simp [Rule.parts])
    obtain ⟨_, rfl⟩ := hpush
    apply Foretells.bind_eq
    · apply Foretells.replicate
      intro c q
      apply Foretells.bind_eq (hparse hitem q)
      intro outputs q
      exact .refl _ q
    · intro c q
      exact .refl _ q
  | recover r => exact (hparse (hpart (by simp [Rule.parts])) p).orDefault _
  | scopeWhitespace =>
    apply Foretells.bind_eq (skipScopeWhitespace_foretells h hr)
    intro _ q
    exact .refl _ q
  | whitespace r =>
    apply Foretells.bind_eq (skipWith_foretells h (hpart (by simp [Rule.parts])))
    intro _ q
    exact .refl _ q
  | noWhitespace r =>
    exact thenSkip_foretells h (hparse (cmp.withoutAuto (hpart (by simp [Rule.parts]))) p) hr

end

/-! ## All attempts -/

/-- An attempt at a token. -/
theorem attemptToken_foretells {t : Token} {commit commit' : Nat → Commit}
    (hmatch : cmp.Matches r calls calls') (ht : r.token? = some t)
    (hcommit : ∀ stop, cmp.Commits r (commit stop) (commit' stop)) :
    Tells cmp.Halted (Option.Rel (cmp.Commits r))
      (do
        match ← env.matchToken calls t p with
        | .ok stop => return some (commit stop)
        | .error _ => return none)
      (do
        match ← env.matchToken calls' t p with
        | .ok stop => return some (commit' stop)
        | .error _ => return none) := by
  refine tells_bind (matchToken_foretells hmatch ht) ?_
  rintro m _ rfl
  cases m with
  | error f => exact .ok .none
  | ok stop => exact .ok (.some (hcommit stop))

/-- An attempt that leads on to more than the one it is made from. -/
theorem map_foretells {x : Excuse} {C D : Commit → Commit → Prop} {a a' : Attempt}
    (ha : Tells x.Halted (Option.Rel C) (a p) (a' p)) {more more' : Commit → Commit}
    (hmore : ∀ c c', C c c' → D (more c) (more' c')) :
    Tells x.Halted (Option.Rel D) (do return (← a p).map more)
      (do return (← a' p).map more') := by
  refine tells_bind ha ?_
  intro c? c?' hc
  cases hc with
  | none => exact .ok .none
  | some hc => exact .ok (.some (hmore _ _ hc))

/-- An attempt at a rule that makes one token. -/
theorem attemptOneToken_foretells (env : Environment) (h : cmp.Skips calls calls')
    (hmatch : cmp.Matches r calls calls') (htoken : r.isToken) :
    cmp.Attempts r (env.attemptRule calls r) (env.attemptRule calls' r) p := by
  cases r with
  | token t => exact attemptToken_foretells hmatch rfl (commitToken_foretells h t)
  | capture t => exact attemptToken_foretells hmatch rfl (commitCapture_foretells h t)
  | integer type radix =>
    exact attemptToken_foretells hmatch rfl (commitInteger_foretells h type radix)
  | symbol table =>
    show Tells _ _ (.ok ((env.findSymbol table (env.cursor p)).map _))
      (.ok ((env.findSymbol table (env.cursor p)).map _))
    cases env.findSymbol table (env.cursor p) with
    | none => exact .ok .none
    | some found => exact .ok (.some (env.commitSymbol_foretells h _ _ _))
  | symbolOf table t =>
    refine tells_bind (matchToken_foretells hmatch (t := t) rfl) ?_
    rintro m _ rfl
    cases m with
    | error f => exact .ok .none
    | ok stop =>
      simp only
      cases env.findSymbolTo table stop p with
      | error f => exact .error (.fault f)
      | ok found =>
        cases found with
        | none => exact .ok .none
        | some v => exact .ok (.some (env.commitSymbol_foretells h _ v _))
  | symbolIdentifier table leading trailing =>
    unfold Attempts attemptRule
    simp only
    cases env.findKeyword table trailing p with
    | error f => exact .error (.fault f)
    | ok found =>
      cases found with
      | none => exact .ok .none
      | some found => exact .ok (.some (env.commitSymbol_foretells h _ _ _))
  | _ => cases htoken

/-- An attempt at a rule that neither makes a token itself nor refers to a production. -/
theorem attemptRule_foretells (h : cmp.Skips calls calls') (hparse : cmp.Parses calls calls')
    (htoken : ¬ r.isToken) (hproduction : ∀ n, r ≠ .production n) (hr : cmp.Admits r s s') :
    cmp.Attempts r (env.attemptRule calls r) (env.attemptRule calls' r) p := by
  have hpart : ∀ t ∈ r.parts, ∀ s s', cmp.Admits r s s' → cmp.Admits t s s' :=
    fun t ht _ _ hr => cmp.part hr ht
  cases r with
  | token | capture | integer | symbol | symbolOf | symbolIdentifier => exact absurd rfl htoken
  | production n => exact absurd rfl (hproduction n)
  | position => exact .ok (.some fun hr p => hparse hr p)
  | branch condition rest =>
    have hcondition := hpart condition (by simp [Rule.parts])
    apply map_foretells (h.attempt (hcondition _ _ hr) p)
    intro c c' hc s s' hr q
    exact andThen_foretells hparse (hc (hcondition _ _ hr) q)
      (hpart rest (by simp [Rule.parts]) _ _ hr)
  | choice first second =>
    have hone := h.attempt (hpart first (by simp [Rule.parts]) _ _ hr) p
    have htwo := h.attempt (hpart second (by simp [Rule.parts]) _ _ hr) p
    refine tells_bind hone ?_
    intro c? c?' hc
    cases hc with
    | some hc => exact .ok (.some fun hr q => hc (hpart first (by simp [Rule.parts]) _ _ hr) q)
    | none =>
      -- The second alternative leads on to what it makes of its own.
      have hsecond := hpart second (by simp [Rule.parts])
      rw [← bind_pure (calls.attempt second p), ← bind_pure (calls'.attempt second p)]
      refine tells_bind htwo ?_
      intro c? c?' hc
      cases hc with
      | none => exact .ok .none
      | some hc => exact .ok (.some fun hr q => hc (hsecond _ _ hr) q)
  | list item =>
    have hitem := hpart item (by simp [Rule.parts])
    apply map_foretells (h.attempt (hitem _ _ hr) p)
    intro c c' hc s s' hr q
    exact listFrom_foretells h (hc (hitem _ _ hr) q) (hitem _ _ hr)
  | recover r =>
    have hinner := hpart r (by simp [Rule.parts])
    apply map_foretells (h.attempt (hinner _ _ hr) p)
    intro c c' hc s s' hr q
    exact (hc (hinner _ _ hr) q).orDefault _
  | noWhitespace r =>
    have hinner := hpart r (by simp [Rule.parts])
    apply map_foretells (h.attempt (hinner _ _ hr) p)
    intro c c' hc s s' hr q
    exact thenSkip_foretells h (hc (cmp.withoutAuto (hinner _ _ hr)) q) hr
  | seq | opt | listOpt | listSep | listTrailing | times | recurse | scopeWhitespace | whitespace
  | never | fail | warn | context | emit => exact .ok .none

/-! ## Rules and productions -/

/-- A reference to a production foretells another one, as far as what is inside of it does. -/
structure Enters (env : Environment) (cmp : Comparison) (calls calls' : Calls) : Prop where
  admits : ∀ {n s s'}, cmp.Admits (.production n) s s' ∨ cmp.Admits (.recurse n) s s' →
    cmp.Admits (env.grammar.production n).rule (s.inside (env.grammar.production n))
      (s'.inside (env.grammar.production n))
  agree : ∀ {n s s'} {body body' : Commit} {p},
    cmp.Admits (.production n) s s' ∨ cmp.Admits (.recurse n) s s' →
    cmp.Agree (body (s.inside (env.grammar.production n)))
      (body' (s'.inside (env.grammar.production n))) p →
    cmp.Agree (inProduction calls (env.grammar.production n) s body)
      (inProduction calls' (env.grammar.production n) s' body') p

/-- Where equal scopes are compared, every production foretells itself. -/
theorem Enters.of_same (hsame : ∀ {r s s'}, cmp.Admits r s s' ↔ s = s')
    (h : cmp.Skips calls calls') : env.Enters cmp calls calls' where
  admits {n s s'} hs := by
    obtain rfl : s = s' := hs.elim hsame.1 hsame.1
    exact hsame.2 rfl
  agree {n s s' body body' p} hs hbody := by
    obtain rfl : s = s' := hs.elim hsame.1 hsame.1
    exact inProduction_foretells_same (r := .never) h _ (hsame.2 rfl) hbody

section
variable (h : cmp.Skips calls calls') (hparse : cmp.Parses calls calls')
  (hmatch : ∀ r, cmp.Matches r calls calls') (henters : env.Enters cmp calls calls')

include h hparse hmatch henters

theorem anyRule_foretells (hr : cmp.Admits r s s') (p : Nat) :
    cmp.Agree (env.parseRule calls r s) (env.parseRule calls' r s') p := by
  by_cases htoken : r.isToken
  · exact env.parseToken_foretells h (hmatch r) htoken hr
  · cases r with
    | production n => exact henters.agree (.inl hr) (hparse (henters.admits (.inl hr)) p)
    | recurse n => exact henters.agree (.inr hr) (hparse (henters.admits (.inr hr)) p)
    | _ =>
      exact parseRule_foretells h hparse htoken
        (fun _ => ⟨Rule.noConfusion, Rule.noConfusion⟩) hr

theorem anyAttempt_foretells (hr : cmp.Admits r s s') (p : Nat) :
    cmp.Attempts r (env.attemptRule calls r) (env.attemptRule calls' r) p := by
  by_cases htoken : r.isToken
  · exact env.attemptOneToken_foretells h (hmatch r) htoken
  · cases r with
    | production n =>
      apply map_foretells (h.attempt (henters.admits (.inl hr)) p)
      intro c c' hc s s' hr q
      exact henters.agree (.inl hr) (hc (henters.admits (.inl hr)) q)
    | _ => exact attemptRule_foretells h hparse htoken (fun _ => Rule.noConfusion) hr

end

end Environment

end Phrase
