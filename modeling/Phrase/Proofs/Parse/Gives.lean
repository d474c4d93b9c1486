import Phrase.Proofs.Parse.Tiling
import Phrase.Proofs.Rule.Units

/-!
# What a parse gives

Whoever knows the units in front of a parse can say how it ends: with which result, where, and
after which errors (`Parse.Gives`); tokens are left open.  That is said of a parse if it ends at
all, so fuel plays no part in it.  There is one lemma for each way to put parses together, and
then one for each step from a token to what follows it; whitespace is a class of ASCII.
-/

namespace Phrase

/-! ## Control -/

namespace Parse

variable {α β σ : Type} {m : Parse α} {k : α → Parse β} {a : α} {p q r : Nat}
  {result : Option α} {result' : Option β} {errors errors' : List ParseError}

/-- If the parse ends, it ends with this result at this position, and has reported these errors. -/
def Gives (m : Parse α) (p : Nat) (result : Option α) (q : Nat) (errors : List ParseError) :
    Prop :=
  ∀ o, m p = .ok o → o.result = result ∧ o.position = q ∧ errorsOf o.events = errors

theorem gives_of_eq {es : List Event} (h : m p = .ok ⟨result, q, es⟩) :
    m.Gives p result q (errorsOf es) := by
  intro o ho
  obtain rfl := Except.ok.inj (h.symm.trans ho)
  exact ⟨rfl, rfl, rfl⟩

theorem gives_of_error {h : Halt} (hm : m p = .error h) : m.Gives p result q errors := by
  intro o ho
  rw [hm] at ho
  cases ho

theorem gives_pure (a : α) (p : Nat) : (pure a : Parse α).Gives p (some a) p [] :=
  gives_of_eq (Parse.pure_apply a p)

theorem gives_fail (p : Nat) : (fail : Parse α).Gives p none p [] :=
  gives_of_eq (show (fail : Parse α) p = .ok ⟨none, p, []⟩ from rfl)

theorem Gives.bind (hm : m.Gives p (some a) q errors) (hk : (k a).Gives q result' r errors') :
    (m >>= k).Gives p result' r (errors ++ errors') := by
  intro o ho
  rcases bind_cases ho with ⟨_, _, hmp, -⟩ | ⟨b, q', es, next, hmp, hnext, rfl⟩
  · obtain ⟨hnone, -, -⟩ := hm _ hmp
    cases hnone
  · obtain ⟨hb, rfl, rfl⟩ := hm _ hmp
    obtain rfl := Option.some.inj hb
    obtain ⟨hresult, hposition, rfl⟩ := hk _ hnext
    exact ⟨hresult, hposition, errorsOf_append _ _⟩

theorem Gives.bind_none (hm : m.Gives p none q errors) : (m >>= k).Gives p none q errors := by
  intro o ho
  rcases bind_cases ho with ⟨_, _, hmp, rfl⟩ | ⟨_, _, _, _, hmp, -, -⟩
  · obtain ⟨-, hposition, herrors⟩ := hm _ hmp
    exact ⟨rfl, hposition, herrors⟩
  · obtain ⟨hsome, -, -⟩ := hm _ hmp
    cases hsome

/-- Behind a step that reports nothing. -/
theorem Gives.andThen (hm : m.Gives p (some a) q []) (hk : (k a).Gives q result' r errors) :
    (m >>= k).Gives p result' r errors := hm.bind hk

theorem gives_look {f : Nat → Except Halt α} (h : ∀ a, f p = .ok a → (k a).Gives p result' r errors) :
    (look f >>= k).Gives p result' r errors := by
  cases hf : f p with
  | error e => exact gives_of_error (bind_of_error (look_of_error hf))
  | ok a => exact (gives_of_eq (look_eq hf)).andThen (h a hf)

theorem Gives.orDefault (h : m.Gives p result q errors) (a : α) :
    (m.orDefault a).Gives p (some (result.getD a)) q errors := by
  intro o ho
  obtain ⟨first, hm, rfl⟩ := orDefault_cases ho
  obtain ⟨rfl, hposition, herrors⟩ := h _ hm
  exact ⟨rfl, hposition, herrors⟩

theorem Gives.asOneToken (h : m.Gives p result q errors) (kind : Bool → TokenKind) :
    (m.asOneToken kind).Gives p result q errors := by
  intro o ho
  obtain ⟨first, hm, rfl⟩ := asOneToken_cases ho
  obtain ⟨hresult, hposition, rfl⟩ := h _ hm
  exact ⟨hresult, hposition, errorsOf_silenced _ _ _ _⟩

theorem Gives.between (h : m.Gives p result q errors) (name : String) :
    (m.between (.start name) (.close name)).Gives p result q errors := by
  intro o ho
  obtain ⟨first, hm, rfl⟩ := between_cases ho
  obtain ⟨hresult, hposition, rfl⟩ := h _ hm
  exact ⟨hresult, hposition, errorsOf_bracketed _ _ _ _ _⟩

section
variable {step : σ → Parse (ForInStep σ)} {s s' : σ} {result : Option σ}

theorem Gives.iterate_done (h : (step s).Gives p (some (.done s')) q errors) (fuel : Nat) :
    (iterate step fuel s).Gives p (some s') q errors := by
  cases fuel with
  | zero => exact gives_of_error rfl
  | succ fuel =>
    rw [iterate, ← List.append_nil errors]
    exact h.bind (gives_pure s' q)

theorem Gives.iterate_yield (h : (step s).Gives p (some (.yield s')) q errors)
    (hmore : ∀ fuel, (iterate step fuel s').Gives q result r errors') (fuel : Nat) :
    (iterate step fuel s).Gives p result r (errors ++ errors') := by
  cases fuel with
  | zero => exact gives_of_error rfl
  | succ fuel => exact h.bind (hmore fuel)

end

end Parse

/-! ## Units in front -/

namespace Environment

open Parse

variable {env : Environment} {n p q stop : Nat} {us vs : List Nat} {scope : Scope} {t : Token}

/-- These units are left in front of a position. -/
def Faces (env : Environment) (p : Nat) (us : List Nat) : Prop :=
  (env.cursor p).remaining = .ok us

theorem Faces.stop_eq (h : env.Faces p us) : env.stop = p + us.length := by
  have hlength := Cursor.length_of_remaining h
  obtain ⟨hle, -, -⟩ := Source.slice_eq_ok_iff.1 h
  simp only [cursor] at hle hlength
  omega

theorem Faces.behind (h : env.Faces p (us ++ vs)) : env.Faces (p + us.length) vs := by
  have hrest := Cursor.remaining_behind h (n := us.length) (by rw [List.length_append]; omega)
  rw [List.drop_left] at hrest
  exact hrest

theorem Faces.tail {u : Nat} (h : env.Faces p (u :: us)) : env.Faces (p + 1) us :=
  behind (show env.Faces p ([u] ++ us) from h)

theorem Faces.slice (h : env.Faces p (us ++ vs)) :
    env.source.slice ⟨p, p + us.length⟩ = .ok us := by
  have hstop := h.stop_eq
  rw [List.length_append] at hstop
  refine (Cursor.slice_eq_ok_iff_take h (q := p + us.length) ?_).2 ⟨Nat.le_add_right _ _, ?_⟩
  · show p + us.length ≤ env.stop
    omega
  · show us = (us ++ vs).take (p + us.length - p)
    rw [Nat.add_sub_cancel_left, List.take_left]

/-! ## Tokens -/

/-- A branch that applies is gone on with, one that does not is passed by. -/
theorem gives_attempt_token {β : Type} {k : Option Commit → Parse β} {result : Option β}
    {errors : List ParseError} {m : TokenMatch}
    (hm : ∀ calls, env.matchToken calls t p = .ok m)
    (hk : ∀ n, (k (match m with
      | .ok stop => some (env.commitToken (env.calls n) t stop)
      | .error _ => none)).Gives p result q errors) :
    (look (env.attempt n (.token t)) >>= k).Gives p result q errors := by
  refine gives_look fun commit? h => ?_
  cases n with
  | zero => cases h
  | succ n =>
    rw [attempt_succ, attemptRule, hm] at h
    have hk := hk n
    cases m with
    | ok stop =>
      cases h
      exact hk
    | error f =>
      cases h
      exact hk

theorem gives_expectToken {calls : Calls} (hm : env.matchToken calls t p = .ok (.ok stop)) :
    (env.expectToken calls t scope).Gives p (some stop) p [] :=
  (gives_of_eq (look_eq hm)).andThen (gives_pure stop p)

theorem gives_expectToken_none {calls : Calls} {f : TokenFailure}
    (hm : env.matchToken calls t p = .ok (.error f)) (hp : p ≤ f.stop) (hstop : f.stop ≤ env.stop) :
    (env.expectToken calls t scope).Gives p none f.stop [⟨f.kind, f.range, scope.production⟩] := by
  have hreport := gives_of_eq (reportFailure_eq scope hp hstop)
  have hfail : (Parse.fail : Parse Nat).Gives f.stop none f.stop [] := gives_fail f.stop
  have hfails := hreport.bind (k := fun _ => (Parse.fail : Parse Nat)) hfail
  have herrors : ∀ es : List Event, es = [] ∨ es = [.token .error ⟨p, f.stop⟩] →
      errorsOf (es ++ [.error ⟨f.kind, f.range, scope.production⟩]) ++ [] =
        [⟨f.kind, f.range, scope.production⟩] := by
    rintro es (rfl | rfl) <;> rfl
  rw [herrors _ (by split; exacts [.inr rfl, .inl rfl])] at hfails
  exact (gives_of_eq (look_eq hm)).andThen hfails

theorem gives_passToken (kind : TokenKind) (hstop : stop ≤ env.stop) :
    (env.passToken kind stop).Gives p (some ()) stop [] :=
  gives_of_eq (passToken_eq kind hstop)

/-! ## Whitespace -/

section
variable (k : AsciiClass)

/-- A class of characters is skipped as whitespace up to the first unit that is not in it. -/
theorem gives_skipWith (h : env.Faces p us) (n : Nat) (scope : Scope) :
    (skipWith (env.calls n) (.token (.charClass k)) scope).Gives p (some ())
      (p + (us.takeWhile k.contains).length) [] := by
  refine Gives.asOneToken ?_ _
  unfold skipBranch
  generalize (env.calls n).fuel = fuel
  induction us generalizing p fuel with
  | nil =>
    refine Gives.iterate_done ?_ fuel
    refine gives_attempt_token (fun calls => congrArg Except.ok (matchClass_units h k)) fun n => ?_
    exact gives_pure _ p
  | cons u us ih =>
    have hmatch : ∀ calls, env.matchToken calls (.charClass k) p = .ok (if k.contains u then
        .ok (p + 1) else .error (.at p (.expectedCharClass k.name))) :=
      fun calls => congrArg Except.ok (matchClass_units h k)
    rw [List.takeWhile_cons]
    by_cases hu : k.contains u = true
    · rw [if_pos hu, List.length_cons, Nat.add_comm _ 1, ← Nat.add_assoc]
      rw [← List.nil_append ([] : List ParseError)]
      refine Gives.iterate_yield ?_ (fun fuel => ih h.tail fuel) fuel
      refine gives_attempt_token hmatch fun n => ?_
      rw [if_pos hu]
      have hstop : p + 1 ≤ env.stop := by
        rw [h.stop_eq, List.length_cons]
        omega
      have hcommit : (env.commitToken (env.calls n) (.charClass k) (p + 1)
          scope.insideWhitespace).Gives p (some []) (p + 1) [] :=
        ((gives_passToken _ hstop).andThen (gives_pure () (p + 1))).andThen (gives_pure [] (p + 1))
      refine (gives_of_eq (m := Parse.position) rfl).andThen (hcommit.andThen ?_)
      refine (gives_of_eq (m := Parse.position) rfl).andThen ?_
      rw [if_neg (Nat.succ_ne_self p)]
      exact gives_pure _ (p + 1)
    · rw [if_neg hu]
      refine Gives.iterate_done ?_ fuel
      refine gives_attempt_token hmatch fun n => ?_
      rw [if_neg hu]
      exact gives_pure _ p

variable (hwhitespace : scope.whitespace = some (.token (.charClass k)))
include hwhitespace

theorem gives_skipScopeWhitespace (h : env.Faces p us) (n : Nat) :
    (skipScopeWhitespace (env.calls n) scope).Gives p (some ())
      (p + (us.takeWhile k.contains).length) [] := by
  rw [skipScopeWhitespace, hwhitespace]
  exact gives_skipWith k h n scope

variable (hauto : scope.auto = true)
include hauto

/-- Behind a token whitespace is skipped. -/
theorem gives_finishToken (kind : TokenKind) (h : env.Faces stop us) (n : Nat) :
    (env.finishToken (env.calls n) kind stop scope).Gives p (some ())
      (stop + (us.takeWhile k.contains).length) [] := by
  have hstop : stop ≤ env.stop := h.stop_eq ▸ Nat.le_add_right _ _
  refine (gives_passToken kind hstop).andThen ?_
  rw [skipWhitespace, if_pos hauto]
  exact gives_skipScopeWhitespace k hwhitespace h n

theorem gives_commitToken (h : env.Faces stop us) (n : Nat) :
    (env.commitToken (env.calls n) t stop scope).Gives p (some [])
      (stop + (us.takeWhile k.contains).length) [] :=
  (gives_finishToken k hwhitespace hauto _ h n).andThen (gives_pure [] _)

end

/-! ## Rules -/

/-- Some fuel is spent for every rule. -/
theorem gives_parse {r : Rule} {result : Option Outputs} {errors : List ParseError}
    (h : ∀ n, (env.parseRule (env.calls n) r scope).Gives p result q errors) (n : Nat) :
    (env.parse n r scope).Gives p result q errors := by
  cases n with
  | zero => exact gives_of_error rfl
  | succ n => exact h n

/-- A rule behind another one. -/
theorem gives_seq {a b : Rule} {vs : Outputs} {result : Option Outputs} {r : Nat}
    {errors errors' : List ParseError}
    (ha : ∀ n, (env.parse n a scope).Gives p (some vs) q errors)
    (hb : ∀ n, (env.parse n b scope).Gives q result r errors') (n : Nat) :
    (env.parse n (.seq a b) scope).Gives p (result.map (vs ++ ·)) r (errors ++ errors') := by
  refine gives_parse (fun n => (ha n).bind ?_) n
  cases result with
  | none => exact (hb n).bind_none
  | some ws =>
    rw [← List.append_nil errors']
    exact (hb n).bind (gives_pure (vs ++ ws) r)

section
variable {type : IntegerType} {radix : Radix} (h : env.Faces p (us ++ vs))
  (hus : (us ++ vs).takeWhile (fun u => (radix.digit? u).isSome) = us)
include h hus

theorem matchToken_digits (calls : Calls) :
    env.matchToken calls (.digits radix) p = .ok (if us = [] then
      .error (.at p (.expectedCharClass radix.className)) else .ok (p + us.length)) := by
  have hmatch := matchDigits_units h radix
  rw [hus] at hmatch
  rw [matchToken, Token.matchUnits?, hmatch]
  · rfl
  · intro _ _ h
    cases h

/-- Where there are no digits, nothing is read. -/
theorem gives_integer_missing (hnil : us = []) (n : Nat) :
    (env.parse n (.integer type radix) scope).Gives p none p
      [⟨.expectedCharClass radix.className, ⟨p, p⟩, scope.production⟩] := by
  refine gives_parse (fun n => Gives.bind_none ?_) n
  have hmatch := matchToken_digits h hus (env.calls n)
  rw [if_pos hnil] at hmatch
  exact gives_expectToken_none hmatch (Nat.le_refl p) (h.stop_eq ▸ Nat.le_add_right _ _)

variable (hne : us ≠ [])
include hne

theorem gives_integer_digits {result : Option Outputs} {errors : List ParseError}
    (hcommit : ∀ n, (env.commitInteger (env.calls n) type radix (p + us.length) scope).Gives p
      result q errors) (n : Nat) :
    (env.parse n (.integer type radix) scope).Gives p result q errors := by
  refine gives_parse (fun n => ?_) n
  have hmatch := matchToken_digits h hus (env.calls n)
  rw [if_neg hne] at hmatch
  exact (gives_expectToken hmatch).andThen (hcommit n)

/-- Digits whose number does not fit are passed over and reported; no whitespace is skipped. -/
theorem gives_integer_overflow (hfits : type.ofDigits? radix us = none) (n : Nat) :
    (env.parse n (.integer type radix) scope).Gives p none (p + us.length)
      [⟨.integerOverflow, ⟨p, p + us.length⟩, scope.production⟩] := by
  have hstop : p + us.length ≤ env.stop := by
    rw [h.stop_eq, List.length_append]
    omega
  refine gives_integer_digits h hus hne (fun n => ?_) n
  refine (gives_of_eq (m := Parse.position) rfl).andThen ?_
  rw [h.slice]
  refine (gives_of_eq (lift_ok us p)).andThen ?_
  simp only [hfits]
  exact (gives_passToken .digits hstop).andThen (gives_of_eq (report_fail_eq scope _ _))

/-- Digits whose number fits are a token like another one. -/
theorem gives_integer_fits (k : AsciiClass)
    (hwhitespace : scope.whitespace = some (.token (.charClass k))) (hauto : scope.auto = true)
    {number : Nat} (hfits : type.ofDigits? radix us = some number) (n : Nat) :
    (env.parse n (.integer type radix) scope).Gives p (some [.int number])
      (p + us.length + (vs.takeWhile k.contains).length) [] := by
  refine gives_integer_digits h hus hne (fun n => ?_) n
  refine (gives_of_eq (m := Parse.position) rfl).andThen ?_
  rw [h.slice]
  refine (gives_of_eq (lift_ok us p)).andThen ?_
  simp only [hfits]
  exact (gives_finishToken k hwhitespace hauto _ h.behind n).andThen (gives_pure _ _)

end

end Environment

end Phrase
