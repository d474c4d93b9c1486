import Phrase.Parse.Interpreter
import Phrase.Proofs.Parse.ComparisonRule

/-!
# Whitespace, read off the open productions

What is skipped as whitespace, and whether that happens by itself, is kept in the scope, which
productions, `noWhitespace` and whitespace rebuild.  Here it is read off the productions that are
open (`Surroundings`): the whitespace is the one that the innermost of them declares, seen no
further out than the innermost token, and it is skipped by itself exactly if none of them is a
token and nothing in between has switched that off.

An interpreter that knows the open productions, and gives every rule the scope that they stand
for, whatever scope it is handed, is the interpreter (`Environment.lexicalCalls_eq`).
-/

namespace Phrase

/-! ## Surroundings -/

/-- The productions that are open, innermost first, and whether a `noWhitespace` around the rule
is open as well. -/
structure Surroundings where
  productions : List Production
  joined : Bool

namespace Surroundings

/-- Outside of all productions. -/
def outer : Surroundings := ⟨[], false⟩

/-- Inside of one more production. -/
def enter (ν : Surroundings) (p : Production) : Surroundings :=
  { ν with productions := p :: ν.productions }

/-- Inside of a `noWhitespace`. -/
def join (ν : Surroundings) : Surroundings := { ν with joined := true }

/-- The productions up to and with the innermost token. -/
def visible : List Production → List Production
  | [] => []
  | p :: ps => if p.isToken then [p] else p :: visible ps

/-- The whitespace that the innermost visible production declares of those that declare one. -/
def whitespace (ν : Surroundings) : Option Rule :=
  (visible ν.productions).findSome? (·.whitespace)

/-- Whether whitespace is skipped by itself. -/
def auto (ν : Surroundings) : Bool := !ν.joined && ν.productions.all (!·.isToken)

/-- The scope with the whitespace of the surroundings, whatever it had before. -/
def scope (ν : Surroundings) (s : Scope) : Scope :=
  { s with whitespace := ν.whitespace, auto := ν.auto }

theorem whitespace_enter (ν : Surroundings) (p : Production) :
    (ν.enter p).whitespace = if p.isToken then p.whitespace else p.whitespace.or ν.whitespace := by
  show (visible (p :: ν.productions)).findSome? (·.whitespace) = _
  rw [visible]
  split
  · cases h : p.whitespace <;> simp [h]
  · cases h : p.whitespace <;> simp [h, whitespace]

theorem auto_enter (ν : Surroundings) (p : Production) :
    (ν.enter p).auto = if p.isToken then false else ν.auto := by
  unfold auto enter
  cases h : p.isToken <;> simp [h]

/-- Inside of a production the scope is that of one more open production. -/
theorem inside_scope (ν : Surroundings) (p : Production) (s : Scope) :
    (ν.enter p).scope ((ν.scope s).inside p) = (ν.scope s).inside p := by
  unfold scope
  rw [whitespace_enter, auto_enter]
  rfl

end Surroundings

/-! ## The interpreter over surroundings -/

/-- Whether all that is parsed inside of a rule is parsed in the scope of the rule. -/
def Rule.keepsScope : Rule → Bool
  | .production _ | .recurse _ | .noWhitespace _ | .scopeWhitespace | .whitespace _ => false
  | r => !r.isToken

namespace Environment

variable (env : Environment)

/-- Parses a rule in the scope of its surroundings.  Inside of a token and of whitespace scopes
start anew, so the usual interpreter goes on there. -/
def lexicalRule (calls : Surroundings → Calls) (plain : Calls) (ν : Surroundings) (r : Rule)
    (scope : Scope) : Parse Outputs :=
  match r with
  | .production n | .recurse n =>
    let p := env.grammar.production n
    inProduction plain p (ν.scope scope) ((calls (ν.enter p)).parse p.rule)
  | .noWhitespace r => thenSkip plain ((calls ν.join).parse r (ν.scope scope)) (ν.scope scope)
  | r => env.parseRule (if r.keepsScope then calls ν else plain) r (ν.scope scope)

/-- Tries a rule; going on from there takes place in the scope of its surroundings. -/
def lexicalAttempt (calls : Surroundings → Calls) (plain : Calls) (ν : Surroundings) (r : Rule) :
    Attempt := fun position =>
  match r with
  | .production n => do
    let p := env.grammar.production n
    return (← (calls (ν.enter p)).attempt p.rule position).map fun commit scope =>
      inProduction plain p (ν.scope scope) commit
  | .noWhitespace r => do
    return (← (calls ν.join).attempt r position).map fun commit scope =>
      thenSkip plain (commit (ν.scope scope)) (ν.scope scope)
  | r => do
    return (← env.attemptRule (if r.keepsScope then calls ν else plain) r position).map
      fun commit scope => commit (ν.scope scope)

/-- What the rules inside of a rule do with this much fuel in their surroundings. -/
def lexicalCalls : Nat → Surroundings → Calls
  | 0, _ => ⟨fun _ _ => .halt .exhausted, fun _ _ => .error .exhausted, 0⟩
  | fuel + 1, ν =>
    ⟨env.lexicalRule (lexicalCalls fuel) (env.calls fuel) ν,
      env.lexicalAttempt (lexicalCalls fuel) (env.calls fuel) ν, fuel + 1⟩

end Environment

/-! ## Both interpreters agree -/

/-- Going on in the scope of some surroundings. -/
def Commit.within (ν : Surroundings) (c : Commit) : Commit := fun scope => c (ν.scope scope)

/-- An attempt that leads on to the scope of some surroundings. -/
def Attempt.within (ν : Surroundings) (a : Attempt) : Attempt := fun p => do
  return (← a p).map (Commit.within ν)

/-- Calls in the scope of some surroundings. -/
def Calls.within (ν : Surroundings) (calls : Calls) : Calls :=
  ⟨fun r scope => calls.parse r (ν.scope scope), fun r => (calls.attempt r).within ν, calls.fuel⟩

namespace Environment

variable {env : Environment} {calls : Calls} {ν : Surroundings} {scope : Scope} {r : Rule}

theorem within_apply {a : Attempt} {p : Nat} {c? : Option Commit} (h : a p = .ok c?) :
    a.within ν p = .ok (c?.map (Commit.within ν)) := by
  rw [Attempt.within, h]
  rfl

/-- Where going on takes place in the scope of the surroundings anyway. -/
theorem look_within_bind {a : Attempt} {k : Option Commit → Parse β}
    (hk : ∀ c, k (some (c.within ν)) = k (some c)) :
    (Parse.look (a.within ν) >>= k) = (Parse.look a >>= k) := by
  funext p
  cases h : a p with
  | error e =>
    have hwithin : a.within ν p = .error e := by
      rw [Attempt.within, h]
      rfl
    rw [Parse.bind_of_error (Parse.look_of_error h),
      Parse.bind_of_error (Parse.look_of_error hwithin)]
  | ok c? =>
    rw [Parse.bind_of_quiet (Parse.look_eq (within_apply h)),
      Parse.bind_of_quiet (Parse.look_eq h)]
    cases c? with
    | none => rfl
    | some c => exact congrFun (hk c) p

theorem moreItems_within (item : Rule) (c : Container) :
    moreItems (calls.within ν) item (ν.scope scope) c = moreItems calls item (ν.scope scope) c := by
  unfold moreItems
  congr 1
  funext c
  exact look_within_bind fun _ => rfl

theorem separatedItems_within (item separator : Rule) (c : Container) :
    separatedItems (calls.within ν) item separator (ν.scope scope) c =
      separatedItems calls item separator (ν.scope scope) c := by
  unfold separatedItems
  congr 1
  funext c
  exact look_within_bind fun _ => rfl

theorem trailedItems_within (item separator : Rule) (c : Container) :
    trailedItems (calls.within ν) item separator (ν.scope scope) c =
      trailedItems calls item separator (ν.scope scope) c := by
  unfold trailedItems
  congr 1
  funext c
  refine Eq.trans (look_within_bind fun _ => rfl) ?_
  congr 1
  funext c?
  cases c? with
  | none => rfl
  | some commit =>
    simp only
    congr 1
    funext _
    exact look_within_bind fun _ => rfl

/-- A rule that keeps its scope makes the same of calls in the scope of the surroundings. -/
theorem parseRule_within (hr : r.keepsScope = true) :
    env.parseRule (calls.within ν) r (ν.scope scope) = env.parseRule calls r (ν.scope scope) := by
  cases r with
  | token | capture | integer | symbol | symbolOf | symbolIdentifier | production | recurse
  | noWhitespace | scopeWhitespace | whitespace => cases hr
  | position | never | fail | warn | context | emit | seq | branch | recover | times => rfl
  | choice first second => exact look_within_bind fun _ => rfl
  | opt r => exact look_within_bind fun _ => rfl
  | list item =>
    simp only [parseRule, listFrom, moreItems_within]
    rfl
  | listOpt item => simp only [parseRule, moreItems_within]
  | listSep item separator =>
    simp only [parseRule, separatedItems_within]
    rfl
  | listTrailing item separator =>
    simp only [parseRule, trailedItems_within]
    rfl

/-- An attempt that leads on to more than the one it is made from. -/
theorem map_within {a : Attempt} {more more' : Commit → Commit}
    (h : ∀ c, (more (c.within ν)).within ν = (more' c).within ν) :
    Attempt.within ν (fun p => do return (← a.within ν p).map more) =
      Attempt.within ν (fun p => do return (← a p).map more') := by
  funext p
  simp only [Attempt.within, bind, Except.bind, pure, Except.pure]
  cases a p with
  | error e => rfl
  | ok c? =>
    cases c? with
    | none => rfl
    | some c => exact congrArg (fun c => Except.ok (some c)) (h c)

theorem attemptRule_within (hr : r.keepsScope = true) :
    (env.attemptRule (calls.within ν) r).within ν = (env.attemptRule calls r).within ν := by
  cases r with
  | token | capture | integer | symbol | symbolOf | symbolIdentifier | production | recurse
  | noWhitespace | scopeWhitespace | whitespace => cases hr
  | position | never | fail | warn | context | emit | seq | opt | listOpt | listSep | listTrailing
  | times => rfl
  | branch condition rest => exact map_within fun _ => rfl
  | recover r => exact map_within fun _ => rfl
  | list item =>
    refine map_within fun c => ?_
    funext scope
    simp only [Commit.within, listFrom, moreItems_within]
    rfl
  | choice first second =>
    funext p
    simp only [Attempt.within, attemptRule, Calls.within, bind, Except.bind, pure, Except.pure]
    cases calls.attempt first p with
    | error e => rfl
    | ok c? =>
      cases c? with
      | some c => rfl
      | none =>
        cases calls.attempt second p with
        | error e => rfl
        | ok c? => cases c? <;> rfl

/-- The body of a production that is entered is in the scope of one more open production. -/
theorem inProduction_within (p : Production) (body : Commit) :
    inProduction calls p (ν.scope scope) (body.within (ν.enter p)) =
      inProduction calls p (ν.scope scope) body := by
  unfold inProduction
  rw [Commit.within, ν.inside_scope]

/-- A rule is parsed in its surroundings as it is in the scope that they stand for. -/
theorem lexicalRule_within (r : Rule) :
    env.lexicalRule (calls.within ·) calls ν r scope = env.parseRule calls r (ν.scope scope) := by
  by_cases hr : r.keepsScope = true
  · have hrule : env.parseRule (calls.within ν) r (ν.scope scope) = _ := parseRule_within hr
    cases r with
    | token | capture | integer | symbol | symbolOf | symbolIdentifier | production | recurse
    | noWhitespace | scopeWhitespace | whitespace => cases hr
    | _ => exact hrule
  · cases r with
    | production n | recurse n =>
      exact inProduction_within (env.grammar.production n)
        (calls.parse (env.grammar.production n).rule)
    | noWhitespace | scopeWhitespace | whitespace | token | capture | integer | symbol | symbolOf
    | symbolIdentifier => rfl
    | _ => exact absurd rfl hr

theorem lexicalAttempt_within (r : Rule) :
    env.lexicalAttempt (calls.within ·) calls ν r = (env.attemptRule calls r).within ν := by
  by_cases hr : r.keepsScope = true
  · have hrule : (env.attemptRule (calls.within ν) r).within ν = _ := attemptRule_within hr
    cases r with
    | token | capture | integer | symbol | symbolOf | symbolIdentifier | production | recurse
    | noWhitespace | scopeWhitespace | whitespace => cases hr
    | _ => exact hrule
  · cases r with
    | production n =>
      funext p
      simp only [lexicalAttempt, attemptRule, Attempt.within, Calls.within, bind, Except.bind,
        pure, Except.pure]
      cases calls.attempt (env.grammar.production n).rule p with
      | error e => rfl
      | ok c? =>
        cases c? with
        | none => rfl
        | some c =>
          exact congrArg (fun c => Except.ok (some c)) (funext fun _ => inProduction_within _ c)
    | noWhitespace r =>
      funext p
      simp only [lexicalAttempt, attemptRule, Attempt.within, Calls.within, bind, Except.bind,
        pure, Except.pure]
      cases calls.attempt r p with
      | error e => rfl
      | ok c? => cases c? <;> rfl
    | recurse | scopeWhitespace | whitespace | token | capture | integer | symbol | symbolOf
    | symbolIdentifier => rfl
    | _ => exact absurd rfl hr

/-- The interpreter over surroundings is the interpreter in the scope that they stand for. -/
theorem lexicalCalls_eq (env : Environment) (n : Nat) (ν : Surroundings) :
    env.lexicalCalls n ν = (env.calls n).within ν := by
  induction n generalizing ν with
  | zero => rfl
  | succ n ih =>
    have hcalls : env.lexicalCalls n = ((env.calls n).within ·) := funext ih
    rw [lexicalCalls, hcalls]
    have hparse : env.lexicalRule ((env.calls n).within ·) (env.calls n) ν =
        fun r scope => env.parse (n + 1) r (ν.scope scope) :=
      funext fun r => funext fun _ => lexicalRule_within r
    have hattempt : env.lexicalAttempt ((env.calls n).within ·) (env.calls n) ν =
        fun r => (env.attempt (n + 1) r).within ν := funext lexicalAttempt_within
    rw [hparse, hattempt]
    rfl

end Environment

end Phrase
