import Phrase.Proofs.Parse.Attempt
import Phrase.Proofs.Parse.Gives

/-!
# What a branch takes

Trying a branch at a position leads to nothing (`Environment.Declines`), or to a parse that ends
without an error (`Environment.Takes`).  What a rule takes follows from what is taken by the
rules inside of it; a repetition takes an item after another one until one declines
(`Environment.Repeats`).  As in `Parse.Gives` it is left open whether there is enough fuel.
-/

namespace Phrase.Environment

open Parse

/-- A token that ends at `stop`, if it can be told. -/
def Accepts (env : Environment) (t : Token) (p stop : Nat) : Prop :=
  ∀ n m, env.matchToken (env.calls n) t p = .ok m → m = .ok stop

/-- A token that does not match. -/
def Rejects (env : Environment) (t : Token) (p : Nat) : Prop :=
  ∀ n m, env.matchToken (env.calls n) t p = .ok m → ∃ f, m = .error f

/-- The whitespace that is skipped behind a token reaches from `p` to `q`. -/
def Skips (env : Environment) (scope : Scope) (p q : Nat) : Prop :=
  ∀ n, (skipWhitespace (env.calls n) scope).Gives p (some ()) q []

/-- A branch that does not apply. -/
def Declines (env : Environment) (r : Rule) (p : Nat) : Prop :=
  ∀ n c?, env.attempt n r p = .ok c? → c? = none

/-- A branch that applies, and whose parse in this scope outputs `vs` and ends at `q`. -/
def Takes (env : Environment) (r : Rule) (scope : Scope) (p : Nat) (vs : Outputs) (q : Nat) :
    Prop :=
  ∀ n c?, env.attempt n r p = .ok c? →
    ∃ commit : Commit, c? = some commit ∧ (commit scope).Gives p (some vs) q []

/-- A rule whose parse in this scope outputs `vs` and ends at `q`. -/
def Parses (env : Environment) (r : Rule) (scope : Scope) (p : Nat) (vs : Outputs) (q : Nat) :
    Prop :=
  ∀ n, (env.parse n r scope).Gives p (some vs) q []

variable {env : Environment} {p q q' stop number : Nat} {scope : Scope} {t : Token}
  {a b r : Rule} {vs ws : Outputs} {v : Value}

theorem declines_of_attemptRule
    (h : ∀ n c?, env.attemptRule (env.calls n) r p = .ok c? → c? = none) : env.Declines r p := by
  intro n c? hc
  cases n with
  | zero => cases hc
  | succ n => exact h n c? hc

theorem takes_of_attemptRule (h : ∀ n c?, env.attemptRule (env.calls n) r p = .ok c? →
    ∃ commit : Commit, c? = some commit ∧ (commit scope).Gives p (some vs) q []) :
    env.Takes r scope p vs q := by
  intro n c? hc
  cases n with
  | zero => cases hc
  | succ n => exact h n c? hc

/-! ## Tokens -/

theorem accepts_of_eq (h : ∀ calls, env.matchToken calls t p = .ok (.ok stop)) :
    env.Accepts t p stop := fun n _ hm => Except.ok.inj (hm.symm.trans (h (env.calls n)))

theorem rejects_of_eq {f : TokenFailure} (h : ∀ calls, env.matchToken calls t p = .ok (.error f)) :
    env.Rejects t p := fun n _ hm => ⟨f, Except.ok.inj (hm.symm.trans (h (env.calls n)))⟩

/-- A rule that is used as a token ends where its parse does. -/
theorem accepts_rule {kind : TokenKind} (h : env.Parses r .silent p vs stop) :
    env.Accepts (.rule r kind) p stop := by
  intro n m hm
  rw [matchToken] at hm
  cases ho : env.parse n r .silent p with
  | error e =>
    simp only [calls, ho] at hm
    cases hm
  | ok o =>
    obtain ⟨hresult, rfl, -⟩ := h n o ho
    simp only [calls, ho, hresult] at hm
    exact (Except.ok.inj hm).symm

theorem skips_of_not_auto (h : scope.auto = false) (p : Nat) : env.Skips scope p p := by
  intro n
  rw [skipWhitespace, h]
  exact gives_pure () p

theorem skips_of_no_whitespace (h : scope.whitespace = none) (p : Nat) : env.Skips scope p p := by
  intro n
  rw [skipWhitespace, skipScopeWhitespace, h]
  split
  · exact gives_pure () p
  · exact gives_pure () p

section
variable (hstop : stop ≤ env.stop) (hskip : env.Skips scope stop q)
include hstop hskip

theorem finishToken_gives (kind : TokenKind) (n : Nat) :
    (env.finishToken (env.calls n) kind stop scope).Gives p (some ()) q [] :=
  (gives_passToken kind hstop).andThen (hskip n)

theorem commitToken_gives (t : Token) (n : Nat) :
    (env.commitToken (env.calls n) t stop scope).Gives p (some []) q [] :=
  (finishToken_gives hstop hskip t.kind n).andThen (gives_pure [] q)

theorem commitCapture_gives (t : Token) (p n : Nat) :
    (env.commitCapture (env.calls n) t stop scope).Gives p (some [.lexeme ⟨p, stop⟩]) q [] := by
  refine (gives_of_eq (m := Parse.position) rfl).andThen ?_
  exact (finishToken_gives hstop hskip t.kind n).andThen (gives_pure _ q)

theorem commitSymbol_gives (kind : TokenKind) (v : Value) (n : Nat) :
    (env.commitSymbol (env.calls n) kind v stop scope).Gives p (some [v]) q [] :=
  (finishToken_gives hstop hskip kind n).andThen (gives_pure [v] q)

variable (h : env.Accepts t p stop)
include h

theorem takes_token : env.Takes (.token t) scope p [] q := by
  refine takes_of_attemptRule fun n c? hc => ?_
  obtain ⟨stop', hm, rfl⟩ | ⟨f, hm, -⟩ := attemptToken_cases hc
  · obtain rfl := Except.ok.inj (h n _ hm)
    exact ⟨_, rfl, commitToken_gives hstop hskip t n⟩
  · cases h n _ hm

theorem takes_capture : env.Takes (.capture t) scope p [.lexeme ⟨p, stop⟩] q := by
  refine takes_of_attemptRule fun n c? hc => ?_
  obtain ⟨stop', hm, rfl⟩ | ⟨f, hm, -⟩ := attemptToken_cases hc
  · obtain rfl := Except.ok.inj (h n _ hm)
    exact ⟨_, rfl, commitCapture_gives hstop hskip t p n⟩
  · cases h n _ hm

omit hstop hskip in
theorem expectToken_gives (scope : Scope) (n : Nat) :
    (env.expectToken (env.calls n) t scope).Gives p (some stop) p [] := by
  refine gives_look fun m hm => ?_
  obtain rfl := h n m hm
  exact gives_pure stop p

theorem parses_token : env.Parses (.token t) scope p [] q :=
  gives_parse fun n => (expectToken_gives h scope n).andThen (commitToken_gives hstop hskip t n)

theorem parses_capture : env.Parses (.capture t) scope p [.lexeme ⟨p, stop⟩] q :=
  gives_parse fun n => (expectToken_gives h scope n).andThen (commitCapture_gives hstop hskip t p n)

end

theorem declines_token (h : env.Rejects t p) : env.Declines (.token t) p := by
  refine declines_of_attemptRule fun n c? hc => ?_
  obtain ⟨stop, hm, -⟩ | ⟨f, -, hc⟩ := attemptToken_cases hc
  · obtain ⟨f, hf⟩ := h n _ hm
    cases hf
  · exact hc

theorem declines_capture (h : env.Rejects t p) : env.Declines (.capture t) p := by
  refine declines_of_attemptRule fun n c? hc => ?_
  obtain ⟨stop, hm, -⟩ | ⟨f, -, hc⟩ := attemptToken_cases hc
  · obtain ⟨f, hf⟩ := h n _ hm
    cases hf
  · exact hc

/-! ## Symbols -/

section
variable {table : Nat} {leading trailing : CharClass}

theorem takes_symbolIdentifier (h : env.findKeyword table trailing p = .ok (some (v, stop)))
    (hstop : stop ≤ env.stop) (hskip : env.Skips scope stop q) :
    env.Takes (.symbolIdentifier table leading trailing) scope p [v] q := by
  refine takes_of_attemptRule fun n c? hc => ?_
  rw [attemptRule, h] at hc
  exact ⟨_, (Except.ok.inj hc).symm, commitSymbol_gives hstop hskip .identifier v n⟩

theorem declines_symbolIdentifier (h : env.findKeyword table trailing p = .ok none) :
    env.Declines (.symbolIdentifier table leading trailing) p := by
  refine declines_of_attemptRule fun n c? hc => ?_
  rw [attemptRule, h] at hc
  exact (Except.ok.inj hc).symm

end

/-! ## Sequences and alternatives -/

theorem Parses.seq (ha : env.Parses a scope p vs q) (hb : env.Parses b scope q ws q') :
    env.Parses (.seq a b) scope p (vs ++ ws) q' := gives_seq ha hb

theorem Takes.branch (ha : env.Takes a scope p vs q) (hb : env.Parses b scope q ws q') :
    env.Takes (.branch a b) scope p (vs ++ ws) q' := by
  refine takes_of_attemptRule fun n c? hc => ?_
  obtain ⟨a?, ha?, rfl⟩ := map_cases hc
  obtain ⟨commit, rfl, hcommit⟩ := ha n a? ha?
  exact ⟨_, rfl, hcommit.andThen ((hb n).andThen (gives_pure (vs ++ ws) q'))⟩

theorem Declines.branch (ha : env.Declines a p) (b : Rule) : env.Declines (.branch a b) p := by
  refine declines_of_attemptRule fun n c? hc => ?_
  obtain ⟨a?, ha?, rfl⟩ := map_cases hc
  rw [ha n a? ha?, Option.map_none]

theorem Takes.choice (ha : env.Takes a scope p vs q) (b : Rule) :
    env.Takes (.choice a b) scope p vs q := by
  refine takes_of_attemptRule fun n c? hc => ?_
  rw [attemptRule] at hc
  cases ha? : env.attempt n a p with
  | error e =>
    simp only [calls, ha?] at hc
    cases hc
  | ok a? =>
    obtain ⟨commit, rfl, hcommit⟩ := ha n a? ha?
    simp only [calls, ha?] at hc
    exact ⟨commit, (Except.ok.inj hc).symm, hcommit⟩

theorem Declines.attempt_choice {n : Nat} {c? : Option Commit} (ha : env.Declines a p)
    (hc : env.attemptRule (env.calls n) (.choice a b) p = .ok c?) : env.attempt n b p = .ok c? := by
  rw [attemptRule] at hc
  cases ha? : env.attempt n a p with
  | error e =>
    simp only [calls, ha?] at hc
    cases hc
  | ok a? =>
    obtain rfl := ha n a? ha?
    simp only [calls, ha?] at hc
    exact hc

theorem Takes.choice_right (hb : env.Takes b scope p vs q) (ha : env.Declines a p) :
    env.Takes (.choice a b) scope p vs q :=
  takes_of_attemptRule fun n c? hc => hb n c? (ha.attempt_choice hc)

theorem Declines.choice (ha : env.Declines a p) (hb : env.Declines b p) :
    env.Declines (.choice a b) p :=
  declines_of_attemptRule fun n c? hc => hb n c? (ha.attempt_choice hc)

/-- A choice that is parsed is tried first. -/
theorem Takes.parses_choice (h : env.Takes (.choice a b) scope p vs q) :
    env.Parses (.choice a b) scope p vs q := by
  refine gives_parse fun n => gives_look fun c? hc => ?_
  obtain ⟨commit, rfl, hcommit⟩ := h n c? hc
  exact hcommit

/-! ## Productions -/

section
variable {prod : Production} (hprod : env.grammar.production number = prod)
include hprod

theorem Declines.production (h : env.Declines prod.rule p) :
    env.Declines (.production number) p := by
  subst hprod
  refine declines_of_attemptRule fun n c? hc => ?_
  obtain ⟨c?, hc?, rfl⟩ := map_cases hc
  rw [h n c? hc?, Option.map_none]

variable (hscope : ¬ scope.Refuses)
include hscope

omit hprod in
theorem inProduction_gives {body : Commit} {n : Nat}
    (h : (body (scope.inside prod)).Gives p (some vs) q [])
    (hskip : env.Skips scope q q') :
    (inProduction (env.calls n) prod scope body).Gives p
      (some [prod.value.call scope.state vs]) q' [] := by
  rw [inProduction_of_not_refuses hscope]
  exact (h.between prod.name).andThen ((hskip n).andThen (gives_pure _ q'))

theorem Takes.production (h : env.Takes prod.rule (scope.inside prod) p vs q)
    (hskip : env.Skips scope q q') :
    env.Takes (.production number) scope p [prod.value.call scope.state vs] q' := by
  subst hprod
  refine takes_of_attemptRule fun n c? hc => ?_
  obtain ⟨c?, hc?, rfl⟩ := map_cases hc
  obtain ⟨commit, rfl, hcommit⟩ := h n c? hc?
  exact ⟨_, rfl, inProduction_gives hscope hcommit hskip⟩

theorem Parses.production (h : env.Parses prod.rule (scope.inside prod) p vs q)
    (hskip : env.Skips scope q q') :
    env.Parses (.production number) scope p [prod.value.call scope.state vs] q' := by
  refine gives_parse fun n => ?_
  rw [parseRule, parseProduction, hprod]
  exact inProduction_gives hscope (h n) hskip

end

/-! ## Repetition -/

/-- Items that are taken one behind the other, each of them moving on, up to where none applies. -/
inductive Repeats (env : Environment) (item : Rule) (scope : Scope) :
    Nat → List Outputs → Nat → Prop
  | nil {p : Nat} (h : env.Declines item p) : Repeats env item scope p [] p
  | cons {p q r : Nat} {vs : Outputs} {vss : List Outputs} (h : env.Takes item scope p vs q)
      (hne : q ≠ p) (hmore : Repeats env item scope q vss r) :
      Repeats env item scope p (vs :: vss) r

variable {item : Rule} {vss : List Outputs}

theorem Repeats.gives_moreItems (h : env.Repeats item scope p vss q) (n : Nat) (c : Container) :
    (moreItems (env.calls n) item scope c).Gives p (some (vss.foldl scope.value.push c)) q [] := by
  unfold moreItems
  generalize (env.calls n).fuel = fuel
  induction h generalizing c fuel with
  | @nil p hdeclines =>
    refine Gives.iterate_done (gives_look fun c? hc => ?_) fuel
    obtain rfl := hdeclines n c? hc
    exact gives_pure _ p
  | @cons p q r vs vss htakes hne _ ih =>
    rw [List.foldl_cons, ← List.nil_append ([] : List ParseError)]
    refine Gives.iterate_yield (gives_look fun c? hc => ?_) (fun fuel => ih _ fuel) fuel
    obtain ⟨commit, rfl, hcommit⟩ := htakes n c? hc
    refine (gives_of_eq (m := Parse.position) rfl).andThen (hcommit.andThen ?_)
    refine (gives_of_eq (m := Parse.position) rfl).andThen ?_
    rw [if_neg hne]
    exact gives_pure _ q

theorem Repeats.parses_listOpt (h : env.Repeats item scope p vss q) :
    env.Parses (.listOpt item) scope p
      [(vss.foldl scope.value.push (scope.value.container scope.state)).finish] q :=
  gives_parse fun n => (h.gives_moreItems n _).andThen (gives_pure _ q)

theorem foldl_push_items (vs us : List Value) :
    (vs.map ([·])).foldl (ValueKind.list false).push (.items us) = .items (vs.reverse ++ us) := by
  induction vs generalizing us with
  | nil => rfl
  | cons v vs ih =>
    rw [List.map_cons, List.foldl_cons, List.reverse_cons, List.append_assoc]
    exact ih (v :: us)

/-- A list of items with one output each. -/
theorem Repeats.parses_list (h : env.Repeats item scope p (vs.map ([·])) q)
    (hvalue : scope.value = .list false) : env.Parses (.listOpt item) scope p [.list vs] q := by
  have hparses := h.parses_listOpt
  rw [hvalue] at hparses
  have hitems := foldl_push_items vs []
  rw [List.append_nil] at hitems
  have hfinish : ((vs.map ([·])).foldl (ValueKind.list false).push
      ((ValueKind.list false).container scope.state)).finish = .list vs := by
    refine (congrArg Container.finish hitems).trans ?_
    rw [Container.finish, List.reverse_reverse]
  rw [hfinish] at hparses
  exact hparses

end Phrase.Environment
