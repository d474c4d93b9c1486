import Phrase.Proofs.Parse.Listing

/-!
# Loops and their end

A loop whose step comes to an end wherever it is made ends exactly if it never comes to a place
where a step asks for more without having moved on (`Parse.Regular.exists_settles_iff`).  The loop
of a list stops behind such an item, so the list ends (`Environment.list_ends`).  The loops that
pass separators do not stop, and a list with separators ends only where none of its repetitions
stays where it was (`Environment.separated_ends_iff`).
-/

namespace Phrase

namespace Parse

variable {σ : Type} {step : Nat → σ → Parse (ForInStep σ)} {p q r stop k : Nat}

/-! ## Loops -/

/-- The step that is made at `q` asks for more at `r`. -/
def Yields (step : Nat → σ → Parse (ForInStep σ)) (q r : Nat) : Prop :=
  ∃ s t es, Settles (fun n => step n s) q (.ok ⟨some (.yield t), r, es⟩)

/-- Where a loop that is started at `p` comes to after so many steps. -/
inductive Repeats (step : Nat → σ → Parse (ForInStep σ)) (p : Nat) : Nat → Nat → Prop where
  | start : Repeats step p 0 p
  | more {k q r : Nat} : Repeats step p k q → Yields step q r → Repeats step p (k + 1) r

/-- A step that comes to an end between two places, stays between them, and asks for more
whatever has been collected. -/
structure Regular (step : Nat → σ → Parse (ForInStep σ)) (p stop : Nat) : Prop where
  grows : ∀ s, Grows fun n => step n s
  ends : ∀ s q, p ≤ q → q ≤ stop → ∃ x, Settles (fun n => step n s) q x
  yields : ∀ {q r}, Yields step q r → ∀ s, ∃ t es,
    Settles (fun n => step n s) q (.ok ⟨some (.yield t), r, es⟩)
  within : ∀ {q r}, Yields step q r → p ≤ q → q ≤ stop → q ≤ r ∧ r ≤ stop

namespace Regular

variable (h : Regular step p stop)

include h

theorem repeats_within (hp : p ≤ stop) (hr : Repeats step p k q) : p ≤ q ∧ q ≤ stop := by
  induction hr with
  | start => exact ⟨Nat.le_refl p, hp⟩
  | more _ hy ih =>
    obtain ⟨hqr, hr⟩ := h.within hy ih.1 ih.2
    exact ⟨Nat.le_trans ih.1 hqr, hr⟩

/-- Steps that move on are counted by the units. -/
theorem repeats_le (hp : p ≤ stop) (hmoves : ∀ k q, Repeats step p k q → ¬ Yields step q q)
    (hr : Repeats step p k q) : p + k ≤ q := by
  induction hr with
  | start => exact Nat.le_refl p
  | @more k q r hr hy ih =>
    obtain ⟨hpq, hq⟩ := h.repeats_within hp hr
    obtain ⟨hqr, -⟩ := h.within hy hpq hq
    have hne : q ≠ r := by
      rintro rfl
      exact hmoves k q hr hy
    omega

/-- A loop ends if all the steps that it comes to move on. -/
theorem ends_of_moves (hp : p ≤ stop) (hmoves : ∀ k q, Repeats step p k q → ¬ Yields step q q)
    (hr : Repeats step p k q) (s : σ) : ∃ x, Settles (fun n => iterate (step n) n s) q x := by
  obtain ⟨hpq, hq⟩ := h.repeats_within hp hr
  -- By induction on the units that are left.
  induction hd : stop - q using Nat.strongRecOn generalizing k q s with
  | ind d ih =>
    refine exists_settles_iterate h.grows (h.ends s q hpq hq) fun t r es ht => ?_
    have hy : Yields step q r := ⟨s, t, es, ht⟩
    obtain ⟨hqr, hrs⟩ := h.within hy hpq hq
    have hne : q ≠ r := by
      rintro rfl
      exact hmoves k q hr hy
    exact ih (stop - r) (by omega) (hr.more hy) t (Nat.le_trans hpq hqr) hrs rfl

omit h in
/-- A loop is exhausted if the one is that it asks for. -/
theorem exhausted_of_yields (hgrows : ∀ s, Grows fun n => step n s)
    (hyields : ∀ s, ∃ t es, Settles (fun n => step n s) q (.ok ⟨some (.yield t), r, es⟩))
    {n fuel : Nat} (hmore : ∀ t, iterate (step n) fuel t r = .error .exhausted) (s : σ) :
    iterate (step n) (fuel + 1) s q = .error .exhausted := by
  obtain ⟨t, es, ht⟩ := hyields s
  by_cases hn : step n s q = .error .exhausted
  · exact bind_of_error hn
  · have hstep : step n s q = .ok ⟨some (.yield t), r, es⟩ :=
      Settles.unique (hgrows s) ⟨hn, n, rfl⟩ ht
    rw [iterate_succ, bind_of_some_eq hstep]
    show behindEvents es (iterate (step n) fuel t r) = _
    rw [hmore t]
    rfl

/-- A loop never ends that comes to a step which asks for more where it stands. -/
theorem exhausted_of_stays (hr : Repeats step p k q) (hy : Yields step q q) (n fuel : Nat) (s : σ) :
    iterate (step n) fuel s p = .error .exhausted := by
  have hstays : ∀ fuel t, iterate (step n) fuel t q = .error .exhausted := by
    intro fuel
    induction fuel with
    | zero => exact fun _ => rfl
    | succ fuel ih => exact exhausted_of_yields h.grows (h.yields hy) ih
  clear hy
  induction hr generalizing fuel s with
  | start => exact hstays fuel s
  | @more k q r _ hy ih =>
    refine ih fuel s fun fuel t => ?_
    cases fuel with
    | zero => rfl
    | succ fuel => exact exhausted_of_yields h.grows (h.yields hy) (hstays fuel) t

/-- A loop ends exactly if none of the steps that it comes to asks for more where it stands. -/
theorem exists_settles_iff (hp : p ≤ stop) (s : σ) :
    (∃ x, Settles (fun n => iterate (step n) n s) p x) ↔
      ∀ k q, Repeats step p k q → ¬ Yields step q q := by
  constructor
  · rintro ⟨x, hx, n, hn⟩ k q hr hy
    exact hx (hn.symm.trans (h.exhausted_of_stays hr hy n n s))
  · exact fun hmoves => h.ends_of_moves hp hmoves .start s

end Regular

end Parse

/-! ## Rules that come to an end -/

/-- A list with separators, or one in which a separator may also come last. -/
def Rule.separated (trailing : Bool) (item separator : Rule) : Rule :=
  match trailing with
  | false => .listSep item separator
  | true => .listTrailing item separator

namespace Environment

open Parse

/-- Whatever is asked of a rule at a position comes to an end: to parse it, and to try it. -/
structure Terminates (env : Environment) (r : Rule) (scope : Scope) (p : Nat) : Prop where
  parse : ∃ x, env.ParseEnds r scope p x
  attempt : ∃ n, env.attempt n r p ≠ .error .exhausted

variable {env : Environment} {r item separator : Rule} {scope : Scope} {p q n : Nat}
  {c t : Container}

theorem ParseEnds.within {o : Outcome Outputs} (hp : p ≤ env.stop)
    (h : env.ParseEnds r scope p (.ok o)) : p ≤ o.position ∧ o.position ≤ env.stop := by
  obtain ⟨-, n, hn⟩ := h
  exact ((EventLaw.bounds env).parse_allows trivial (fun _ _ => trivial) hp).within hn

theorem FinishEnds.parseEnds {x : Except Halt (Outcome Outputs)}
    (h : env.FinishEnds r scope p x) : env.ParseEnds r scope p x := by
  obtain ⟨hx, n, commit, hcommit, hn⟩ := h
  exact (finishEnds_iff hcommit x).1 ⟨hx, n, commit, hcommit, hn⟩

section
variable {k : Nat → Option Commit → Parse (ForInStep Container)}
  {f : Nat → Outputs → Parse (ForInStep Container)}
  (hnone : ∀ l, k l none = pure (.done c)) (hf : ∀ a, Grows fun l => f l a)
  (hk : ∀ l commit, k l (some commit) p = (commit scope >>= f l) p)

include hnone hf hk

/-- A step that is done where a rule does not apply has its result there, or behind the rule. -/
theorem settles_taken_some_iff {y : ForInStep Container} {es : List Event} :
    Settles (fun l => look (env.attempt l r) >>= k l) p (.ok ⟨some y, q, es⟩) ↔
      ((∃ n, env.attempt n r p = .ok none) ∧ y = .done c ∧ q = p ∧ es = []) ∨
      ∃ outputs m fs gs, env.FinishEnds r scope p (.ok ⟨some outputs, m, fs⟩) ∧
        Settles (fun l => f l outputs) m (.ok ⟨some y, q, gs⟩) ∧ es = fs ++ gs := by
  have hparse := grows_parse env r scope
  constructor
  · rintro ⟨hx, n, hn⟩
    change (look (env.attempt n r) >>= k n) p = _ at hn
    cases hattempt : env.attempt n r p with
    | error e =>
      rw [bind_of_error (look_of_error hattempt)] at hn
      cases hn
    | ok commit? =>
      cases commit? with
      | none =>
        rw [bind_of_quiet (look_eq hattempt), hnone] at hn
        cases hn
        exact .inl ⟨⟨n, hattempt⟩, rfl, rfl, rfl⟩
      | some commit =>
        have hends := (endAlike_attempt hattempt hf hk _).1 ⟨hx, n, hn⟩
        obtain ⟨outputs, m, fs, gs, hr, hbehind, hes⟩ := (settles_bind_ok_iff hparse hf).1 hends
        exact .inr ⟨outputs, m, fs, gs, (finishEnds_iff hattempt _).2 hr, hbehind, hes⟩
  · rintro (⟨⟨n, hattempt⟩, rfl, rfl, rfl⟩ | ⟨outputs, m, fs, gs, hr, hbehind, hes⟩)
    · have hdone : (look (env.attempt n r) >>= k n) q = .ok ⟨some (.done c), q, []⟩ := by
        rw [bind_of_quiet (look_eq hattempt), hnone]
        rfl
      exact settles_of_ok hdone
    · obtain ⟨-, n, commit, hattempt, -⟩ := id hr
      exact (endAlike_attempt hattempt hf hk _).2
        ((settles_bind_ok_iff hparse hf).2 ⟨outputs, m, fs, gs, hr.parseEnds, hbehind, hes⟩)

/-- It asks for more only behind the rule. -/
theorem settles_taken_iff {es : List Event} :
    Settles (fun l => look (env.attempt l r) >>= k l) p (.ok ⟨some (.yield t), q, es⟩) ↔
      ∃ outputs m fs gs, env.FinishEnds r scope p (.ok ⟨some outputs, m, fs⟩) ∧
        Settles (fun l => f l outputs) m (.ok ⟨some (.yield t), q, gs⟩) ∧ es = fs ++ gs :=
  (settles_taken_some_iff hnone hf hk).trans (or_iff_right fun h => nomatch h.2.1)

/-- Such a step comes to an end if the rule does, and what comes behind it. -/
theorem exists_settles_taken (h : env.Terminates r scope p)
    (hbehind : ∀ outputs m es, env.ParseEnds r scope p (.ok ⟨some outputs, m, es⟩) →
      ∃ x, Settles (fun l => f l outputs) m x) :
    ∃ x, Settles (fun l => look (env.attempt l r) >>= k l) p x := by
  obtain ⟨n, hn⟩ := h.attempt
  cases hattempt : env.attempt n r p with
  | error e =>
    have hne : (Except.error e : Except Halt (Outcome (ForInStep Container))) ≠
        .error .exhausted := fun he => hn (by rw [hattempt, Except.error.inj he])
    exact ⟨.error e, hne, n, bind_of_error (look_of_error hattempt)⟩
  | ok commit? =>
    cases commit? with
    | none =>
      have hdone : (look (env.attempt n r) >>= k n) p = .ok ⟨some (.done c), p, []⟩ := by
        rw [bind_of_quiet (look_eq hattempt), hnone]
        rfl
      exact ⟨_, settles_of_ok hdone⟩
    | some commit =>
      obtain ⟨x, hx⟩ := exists_settles_bind (grows_parse env r scope) hf h.parse hbehind
      exact ⟨x, (endAlike_attempt hattempt hf hk x).2 hx⟩

end

/-! ## Lists of items -/

theorem settles_takeUp_iff {before : Nat} {outputs : Outputs} {es : List Event} :
    Settles (fun _ => takeUp scope before c outputs) p (.ok ⟨some (.yield t), q, es⟩) ↔
      p ≠ before ∧ t = scope.value.push c outputs ∧ q = p ∧ es = [] := by
  constructor
  · rintro ⟨-, n, hn⟩
    change takeUp scope before c outputs p = _ at hn
    rw [takeUp_eq] at hn
    split at hn
    · cases hn
    · next hne =>
      cases hn
      exact ⟨hne, rfl, rfl, rfl⟩
  · rintro ⟨hne, rfl, rfl, rfl⟩
    have htake := takeUp_eq scope before c outputs q
    rw [if_neg hne] at htake
    exact settles_of_ok (n := 0) htake

theorem settles_itemStep_iff {es : List Event} :
    Settles (fun n => itemStep (env.calls n) item scope c) p (.ok ⟨some (.yield t), q, es⟩) ↔
      ∃ outputs, env.FinishEnds item scope p (.ok ⟨some outputs, q, es⟩) ∧ q ≠ p ∧
        t = scope.value.push c outputs := by
  refine (settles_taken_iff (k := fun _ => takeItem scope c) (f := fun _ => takeUp scope p c)
    (fun _ => rfl) (fun _ => grows_const _)
    fun _ _ => bind_of_quiet (m := Parse.position) rfl).trans ?_
  simp only [settles_takeUp_iff]
  constructor
  · rintro ⟨outputs, m, fs, gs, hitem, ⟨hne, ht, rfl, rfl⟩, rfl⟩
    rw [List.append_nil]
    exact ⟨outputs, hitem, hne, ht⟩
  · rintro ⟨outputs, hitem, hne, ht⟩
    exact ⟨outputs, q, es, [], hitem, ⟨hne, ht, rfl, rfl⟩, (List.append_nil es).symm⟩

/-- The loop of a list never asks for more where it stands. -/
theorem lt_of_yields_itemStep (hp : p ≤ env.stop)
    (h : Yields (fun n => itemStep (env.calls n) item scope) p q) : p < q ∧ q ≤ env.stop := by
  obtain ⟨c, t, es, h⟩ := h
  obtain ⟨outputs, hitem, hne, -⟩ := settles_itemStep_iff.1 h
  obtain ⟨hpq, hq⟩ : p ≤ q ∧ q ≤ env.stop := hitem.parseEnds.within hp
  omega

theorem regular_itemStep (hitem : ∀ q, p ≤ q → q ≤ env.stop → env.Terminates item scope q) :
    Regular (fun n => itemStep (env.calls n) item scope) p env.stop where
  grows := grows_itemStep env item scope
  ends c q hpq hq :=
    exists_settles_taken (k := fun _ => takeItem scope c) (f := fun _ => takeUp scope q c)
      (fun _ => rfl) (fun _ => grows_const _) (fun _ _ => bind_of_quiet (m := Parse.position) rfl)
      (hitem q hpq hq) fun outputs m _ _ =>
        ⟨_, settles_of_ok (n := 0) (takeUp_eq scope q c outputs m)⟩
  yields hy c := by
    obtain ⟨d, t, es, h⟩ := hy
    obtain ⟨outputs, hends, hne, -⟩ := settles_itemStep_iff.1 h
    exact ⟨_, es, settles_itemStep_iff.2 ⟨outputs, hends, hne, rfl⟩⟩
  within hy _ hq := by
    obtain ⟨hlt, hr⟩ := lt_of_yields_itemStep hq hy
    exact ⟨Nat.le_of_lt hlt, hr⟩

theorem exists_settles_moreItems (hp : p ≤ env.stop)
    (hitem : ∀ q, p ≤ q → q ≤ env.stop → env.Terminates item scope q) (c : Container) :
    ∃ x, Settles (fun n => moreItems (env.calls n) item scope c) p x := by
  have hregular := regular_itemStep hitem
  exact (hregular.exists_settles_iff hp c).2 fun k q hrepeats hy => by
    obtain ⟨-, hq⟩ := hregular.repeats_within hp hrepeats
    exact Nat.lt_irrefl q (lt_of_yields_itemStep hq hy).1

theorem exists_settles_restOfList (hp : p ≤ env.stop)
    (hitem : ∀ q, p ≤ q → q ≤ env.stop → env.Terminates item scope q) (c : Container) :
    ∃ x, Settles (fun n => restOfList (env.calls n) item scope c) p x := by
  simp only [restOfList_eq]
  exact exists_settles_bind (grows_iterate (grows_itemStep env item scope) c)
    (fun _ => grows_const _) (exists_settles_moreItems hp hitem c)
    fun c q _ _ => ⟨_, settles_pure [c.finish] q⟩

/-- A list ends, may it be empty or not, if its item comes to an end wherever it is asked for. -/
theorem list_ends (hp : p ≤ env.stop)
    (hitem : ∀ q, p ≤ q → q ≤ env.stop → env.Terminates item scope q) :
    (∃ x, env.ParseEnds (.list item) scope p x) ∧ ∃ x, env.ParseEnds (.listOpt item) scope p x := by
  constructor
  · obtain ⟨x, hx⟩ := exists_settles_bind (grows_parse env item scope)
      (fun outputs => grows_restOfList env item scope
        (scope.value.push (scope.value.container scope.state) outputs))
      (hitem p (Nat.le_refl p) hp).parse fun outputs q es hfirst => by
        obtain ⟨hpq, hq⟩ : p ≤ q ∧ q ≤ env.stop := ParseEnds.within hp hfirst
        exact exists_settles_restOfList hq (fun r h => hitem r (Nat.le_trans hpq h)) _
    exact ⟨x, (parseEnds_list_iff x).2 hx⟩
  · obtain ⟨x, hx⟩ := exists_settles_restOfList hp hitem (scope.value.container scope.state)
    exact ⟨x, (parseEnds_listOpt_iff x).2 hx⟩

/-! ## Lists with separators -/

/-- Takes up the outputs of one more item. -/
def addItem (scope : Scope) (c : Container) (outputs : Outputs) : Parse (ForInStep Container) :=
  return .yield (scope.value.push c outputs)

/-- Goes on with an item that may be missing. -/
def addTried (scope : Scope) (c : Container) : Option Commit → Parse (ForInStep Container)
  | none => return .done c
  | some commit => commit scope >>= addItem scope c

/-- Takes up the item behind a separator. -/
def addBehind (trailing : Bool) (calls : Calls) (item : Rule) (scope : Scope) (c : Container) :
    Parse (ForInStep Container) :=
  match trailing with
  | false => calls.parse item scope >>= addItem scope c
  | true => look (calls.attempt item) >>= addTried scope c

/-- Goes on with a separator, if it applies. -/
def passSeparator (trailing : Bool) (calls : Calls) (item : Rule) (scope : Scope) (c : Container) :
    Option Commit → Parse (ForInStep Container)
  | none => return .done c
  | some commit => commit scope >>= fun _ => addBehind trailing calls item scope c

/-- A step of the loop that takes up items behind separators. -/
def separatedStep (trailing : Bool) (calls : Calls) (item separator : Rule) (scope : Scope)
    (c : Container) : Parse (ForInStep Container) :=
  look (calls.attempt separator) >>= passSeparator trailing calls item scope c

theorem endAlike_separated (env : Environment) (trailing : Bool) (item separator : Rule)
    (scope : Scope) (p : Nat) :
    EndAlike (fun n => env.parse n (.separated trailing item separator) scope)
      (fun n => env.parse n item scope >>= fun outputs =>
        iterate (separatedStep trailing (env.calls n) item separator scope) n
          (scope.value.push (scope.value.container scope.state) outputs) >>= fun c =>
            pure [c.finish]) p := by
  refine (endAlike_parse env _ scope p).trans (endAlike_of_eq fun n => ?_)
  cases trailing with
  | false => rfl
  | true => rfl

/-- The item behind a separator ends with this answer: parsed, or where it may be missing, tried
and gone on with. -/
def ItemEnds (env : Environment) (trailing : Bool) (item : Rule) (scope : Scope) (p : Nat)
    (x : Except Halt (Outcome Outputs)) : Prop :=
  match trailing with
  | false => env.ParseEnds item scope p x
  | true => env.FinishEnds item scope p x

/-- One repetition of a list with separators: a separator applies at `q`, and one item behind it
ends at `r`. -/
def Repetition (env : Environment) (trailing : Bool) (item separator : Rule) (scope : Scope)
    (q r : Nat) : Prop :=
  ∃ passed m fs outputs gs, env.FinishEnds separator scope q (.ok ⟨some passed, m, fs⟩) ∧
    env.ItemEnds trailing item scope m (.ok ⟨some outputs, r, gs⟩)

/-- Where a list with separators comes to behind its first item and so many repetitions. -/
inductive ComesTo (env : Environment) (trailing : Bool) (item separator : Rule) (scope : Scope)
    (p : Nat) : Nat → Nat → Prop where
  | first {outputs : Outputs} {q : Nat} {es : List Event} :
      env.ParseEnds item scope p (.ok ⟨some outputs, q, es⟩) →
      ComesTo env trailing item separator scope p 0 q
  | more {k q r : Nat} : ComesTo env trailing item separator scope p k q →
      env.Repetition trailing item separator scope q r →
      ComesTo env trailing item separator scope p (k + 1) r

section
variable {trailing : Bool} {k : Nat} {es : List Event}

theorem settles_addItem_iff {outputs : Outputs} :
    Settles (fun _ => addItem scope c outputs) p (.ok ⟨some (.yield t), q, es⟩) ↔
      t = scope.value.push c outputs ∧ q = p ∧ es = [] := by
  constructor
  · rintro ⟨-, n, hn⟩
    cases hn
    exact ⟨rfl, rfl, rfl⟩
  · rintro ⟨rfl, rfl, rfl⟩
    exact settles_pure _ _

theorem grows_addBehind (env : Environment) (trailing : Bool) (item : Rule) (scope : Scope)
    (c : Container) : Grows fun n => addBehind trailing (env.calls n) item scope c := by
  cases trailing with
  | false => exact (grows_parse env item scope).bind fun _ => grows_const _
  | true =>
    exact grows_attempt env item (k := fun _ => addTried scope c) (grows_const _)
      fun _ _ _ _ _ hcommit p => (hcommit scope p).bind fun _ => Parse.Below.refl _

theorem grows_separatedStep (env : Environment) (trailing : Bool) (item separator : Rule)
    (scope : Scope) (c : Container) :
    Grows fun n => separatedStep trailing (env.calls n) item separator scope c :=
  grows_attempt env separator (grows_const _) fun n l _ _ hle hcommit p =>
    (hcommit scope p).bind fun _ => grows_addBehind env trailing item scope c n l hle

theorem addItem_behind_iff (Ends : Outputs → Nat → List Event → Prop) :
    (∃ outputs m fs gs, Ends outputs m fs ∧ Settles (fun _ => addItem scope c outputs) m
        (.ok ⟨some (.yield t), q, gs⟩) ∧ es = fs ++ gs) ↔
      ∃ outputs, Ends outputs q es ∧ t = scope.value.push c outputs := by
  constructor
  · rintro ⟨outputs, m, fs, gs, hends, hadd, rfl⟩
    obtain ⟨ht, rfl, rfl⟩ := settles_addItem_iff.1 hadd
    rw [List.append_nil]
    exact ⟨outputs, hends, ht⟩
  · rintro ⟨outputs, hends, ht⟩
    exact ⟨outputs, q, es, [], hends, settles_addItem_iff.2 ⟨ht, rfl, rfl⟩,
      (List.append_nil es).symm⟩

theorem settles_addBehind_iff :
    Settles (fun n => addBehind trailing (env.calls n) item scope c) p
        (.ok ⟨some (.yield t), q, es⟩) ↔
      ∃ outputs, env.ItemEnds trailing item scope p (.ok ⟨some outputs, q, es⟩) ∧
        t = scope.value.push c outputs := by
  cases trailing with
  | false =>
    exact (settles_bind_ok_iff (k := fun _ => addItem scope c) (grows_parse env item scope)
      fun _ => grows_const _).trans
      (addItem_behind_iff fun outputs m fs =>
        env.ParseEnds item scope p (.ok ⟨some outputs, m, fs⟩))
  | true =>
    exact (settles_taken_iff (k := fun _ => addTried scope c) (f := fun _ => addItem scope c)
      (fun _ => rfl) (fun _ => grows_const _) fun _ _ => rfl).trans
      (addItem_behind_iff fun outputs m fs =>
        env.FinishEnds item scope p (.ok ⟨some outputs, m, fs⟩))

theorem settles_separatedStep_iff :
    Settles (fun n => separatedStep trailing (env.calls n) item separator scope c) p
        (.ok ⟨some (.yield t), q, es⟩) ↔
      ∃ passed m fs gs, env.FinishEnds separator scope p (.ok ⟨some passed, m, fs⟩) ∧
        (∃ outputs, env.ItemEnds trailing item scope m (.ok ⟨some outputs, q, gs⟩) ∧
          t = scope.value.push c outputs) ∧ es = fs ++ gs := by
  simp only [← settles_addBehind_iff]
  exact settles_taken_iff (k := fun n => passSeparator trailing (env.calls n) item scope c)
    (f := fun n _ => addBehind trailing (env.calls n) item scope c) (fun _ => rfl)
    (fun _ => grows_addBehind env trailing item scope c) fun _ _ => rfl

/-- A step asks for more exactly where the list is repeated. -/
theorem yields_separatedStep_iff :
    Yields (fun n => separatedStep trailing (env.calls n) item separator scope) p q ↔
      env.Repetition trailing item separator scope p q := by
  constructor
  · rintro ⟨c, t, es, h⟩
    obtain ⟨passed, m, fs, gs, hpass, ⟨outputs, hitem, -⟩, -⟩ := settles_separatedStep_iff.1 h
    exact ⟨passed, m, fs, outputs, gs, hpass, hitem⟩
  · rintro ⟨passed, m, fs, outputs, gs, hpass, hitem⟩
    exact ⟨scope.value.container scope.state, _, _,
      settles_separatedStep_iff.2 ⟨passed, m, fs, gs, hpass, ⟨outputs, hitem, rfl⟩, rfl⟩⟩

theorem ItemEnds.parseEnds {x : Except Halt (Outcome Outputs)}
    (h : env.ItemEnds trailing item scope p x) : env.ParseEnds item scope p x := by
  cases trailing with
  | false => exact h
  | true => exact FinishEnds.parseEnds h

theorem Repetition.within (h : env.Repetition trailing item separator scope p q)
    (hp : p ≤ env.stop) : p ≤ q ∧ q ≤ env.stop := by
  obtain ⟨passed, m, fs, outputs, gs, hpass, hitem⟩ := h
  obtain ⟨hpm, hm⟩ := hpass.parseEnds.within hp
  obtain ⟨hmq, hq⟩ := hitem.parseEnds.within hm
  exact ⟨Nat.le_trans hpm hmq, hq⟩

theorem exists_settles_addBehind (h : env.Terminates item scope p) (trailing : Bool)
    (c : Container) :
    ∃ x, Settles (fun n => addBehind trailing (env.calls n) item scope c) p x := by
  cases trailing with
  | false =>
    exact exists_settles_bind (grows_parse env item scope) (fun _ => grows_const _) h.parse
      fun outputs m _ _ => ⟨_, settles_pure (ForInStep.yield (scope.value.push c outputs)) m⟩
  | true =>
    exact exists_settles_taken (k := fun _ => addTried scope c) (f := fun _ => addItem scope c)
      (fun _ => rfl) (fun _ => grows_const _) (fun _ _ => rfl) h fun outputs m _ _ =>
        ⟨_, settles_pure (ForInStep.yield (scope.value.push c outputs)) m⟩

/-- The loop of a list with separators, if the rules that it is made of come to an end. -/
theorem regular_separatedStep (hitem : ∀ q, p ≤ q → q ≤ env.stop → env.Terminates item scope q)
    (hseparator : ∀ q, p ≤ q → q ≤ env.stop → env.Terminates separator scope q)
    (trailing : Bool) :
    Regular (fun n => separatedStep trailing (env.calls n) item separator scope) p env.stop where
  grows := grows_separatedStep env trailing item separator scope
  ends c q hpq hq :=
    exists_settles_taken (k := fun n => passSeparator trailing (env.calls n) item scope c)
      (f := fun n _ => addBehind trailing (env.calls n) item scope c) (fun _ => rfl)
      (fun _ => grows_addBehind env trailing item scope c) (fun _ _ => rfl) (hseparator q hpq hq)
      fun _ m _ hpass => by
        obtain ⟨hqm, hm⟩ := hpass.within hq
        exact exists_settles_addBehind (hitem m (Nat.le_trans hpq hqm) hm) trailing c
  yields hy c := by
    obtain ⟨passed, m, fs, outputs, gs, hpass, hitem⟩ := yields_separatedStep_iff.1 hy
    exact ⟨_, _, settles_separatedStep_iff.2 ⟨passed, m, fs, gs, hpass, ⟨outputs, hitem, rfl⟩, rfl⟩⟩
  within hy _ hq := (yields_separatedStep_iff.1 hy).within hq

variable {first : Outputs} {q₀ : Nat}

theorem ComesTo.exists_first (h : env.ComesTo trailing item separator scope p k q) :
    ∃ first q₀ es, env.ParseEnds item scope p (.ok ⟨some first, q₀, es⟩) := by
  induction h with
  | first h => exact ⟨_, _, _, h⟩
  | more _ _ ih => exact ih

/-- Behind its first item, a list comes to where its loop does. -/
theorem comesTo_iff_repeats (hfirst : env.ParseEnds item scope p (.ok ⟨some first, q₀, es⟩)) :
    env.ComesTo trailing item separator scope p k q ↔
      Repeats (fun n => separatedStep trailing (env.calls n) item separator scope) q₀ k q := by
  constructor
  · intro h
    induction h with
    | first h =>
      cases h.unique hfirst
      exact .start
    | more _ hmore ih => exact ih.more (yields_separatedStep_iff.2 hmore)
  · intro h
    induction h with
    | start => exact .first hfirst
    | more _ hy ih => exact ih.more (yields_separatedStep_iff.1 hy)

/-- Behind its first item, a list ends if its loop does. -/
theorem separated_ends_behind (hfirst : env.ParseEnds item scope p (.ok ⟨some first, q₀, es⟩)) :
    (∃ x, env.ParseEnds (.separated trailing item separator) scope p x) ↔
      ∃ x, Settles (fun n => iterate (separatedStep trailing (env.calls n) item separator scope) n
        (scope.value.push (scope.value.container scope.state) first)) q₀ x := by
  have hitem := grows_parse env item scope
  have hloop := grows_iterate (grows_separatedStep env trailing item separator scope)
  have hlast : ∀ c : Container, Grows fun _ => (pure [c.finish] : Parse Outputs) :=
    fun _ => grows_const _
  constructor
  · rintro ⟨x, hx⟩
    obtain ⟨y, hy, -⟩ := (Settles.bind_iff hitem (fun _ => (hloop _).bind hlast) hfirst).1
      ((endAlike_separated env trailing item separator scope p x).1 hx)
    rcases hy.bind_cases with ⟨e, he, -⟩ | ⟨r, fs, hnone, -⟩ | ⟨c, r, fs, z, hsome, -, -⟩
    · exact ⟨_, he⟩
    · exact ⟨_, hnone⟩
    · exact ⟨_, hsome⟩
  · intro h
    obtain ⟨y, hy⟩ := exists_settles_bind (hloop _) hlast h
      fun c r _ _ => ⟨_, settles_pure [c.finish] r⟩
    exact ⟨_, (endAlike_separated env trailing item separator scope p _).2
      (Settles.bind_some hitem (fun _ => (hloop _).bind hlast) hfirst hy)⟩

/-- A list with separators whose first item is no result ends, and is not repeated. -/
theorem separated_ends_first {x : Except Halt (Outcome Outputs)}
    (hfirst : env.ParseEnds item scope p x) (hx : ∀ outputs q es, x ≠ .ok ⟨some outputs, q, es⟩)
    (trailing : Bool) (separator : Rule) :
    (∃ y, env.ParseEnds (.separated trailing item separator) scope p y) ∧
      ∀ k q, ¬ env.ComesTo trailing item separator scope p k q := by
  constructor
  · cases x with
    | error e => exact ⟨_, (endAlike_separated env trailing item separator scope p _).2
        (Settles.bind_error hfirst)⟩
    | ok o =>
      obtain ⟨result, q, es⟩ := o
      cases result with
      | none => exact ⟨_, (endAlike_separated env trailing item separator scope p _).2
          (Settles.bind_none hfirst)⟩
      | some outputs => exact absurd rfl (hx outputs q es)
  · intro k q h
    obtain ⟨first, q₀, es, h⟩ := h.exists_first
    exact hx first q₀ es (hfirst.unique h)

end

/-- Where a repetition has stayed where it was, the list is repeated as long as there is fuel. -/
theorem separated_exhausted (hp : p ≤ env.stop)
    (hitem : ∀ q, p ≤ q → q ≤ env.stop → env.Terminates item scope q)
    (hseparator : ∀ q, p ≤ q → q ≤ env.stop → env.Terminates separator scope q)
    {trailing : Bool} {k : Nat} (hcomes : env.ComesTo trailing item separator scope p k q)
    (hstays : env.Repetition trailing item separator scope q q) (n : Nat) :
    env.parse n (.separated trailing item separator) scope p = .error .exhausted := by
  obtain ⟨first, q₀, es, hfirst⟩ := hcomes.exists_first
  obtain ⟨hpq, hq⟩ : p ≤ q₀ ∧ q₀ ≤ env.stop := hfirst.within hp
  have hregular := regular_separatedStep (fun q h => hitem q (Nat.le_trans hpq h))
    (fun q h => hseparator q (Nat.le_trans hpq h)) trailing
  apply Classical.byContradiction
  intro hne
  have hends := (separated_ends_behind hfirst).1 ⟨_, hne, n, rfl⟩
  exact (hregular.exists_settles_iff hq _).1 hends k q ((comesTo_iff_repeats hfirst).1 hcomes)
    (yields_separatedStep_iff.2 hstays)

/-- A list with separators, whose item and separator come to an end wherever they are asked for,
ends exactly if it is not repeated where one repetition, a separator and an item, would end at the
place where it starts.  If the list ends, it is repeated at most as often as there are units. -/
theorem separated_ends_iff (hp : p ≤ env.stop)
    (hitem : ∀ q, p ≤ q → q ≤ env.stop → env.Terminates item scope q)
    (hseparator : ∀ q, p ≤ q → q ≤ env.stop → env.Terminates separator scope q)
    (trailing : Bool) :
    ((∃ x, env.ParseEnds (.separated trailing item separator) scope p x) ↔
      ∀ k q, env.ComesTo trailing item separator scope p k q →
        ¬ env.Repetition trailing item separator scope q q) ∧
    ((∃ x, env.ParseEnds (.separated trailing item separator) scope p x) →
      ∀ k q, env.ComesTo trailing item separator scope p k q → k ≤ env.stop - p) := by
  obtain ⟨x, hx⟩ := (hitem p (Nat.le_refl p) hp).parse
  by_cases hsome : ∃ first q₀ es, x = .ok ⟨some first, q₀, es⟩
  · obtain ⟨first, q₀, es, rfl⟩ := hsome
    obtain ⟨hpq, hq⟩ : p ≤ q₀ ∧ q₀ ≤ env.stop := hx.within hp
    have hregular := regular_separatedStep (fun q h => hitem q (Nat.le_trans hpq h))
      (fun q h => hseparator q (Nat.le_trans hpq h)) trailing
    have hends := hregular.exists_settles_iff hq
      (scope.value.push (scope.value.container scope.state) first)
    simp only [separated_ends_behind hx, comesTo_iff_repeats hx, ← yields_separatedStep_iff]
    refine ⟨hends, fun h k q hrepeats => ?_⟩
    have hle := hregular.repeats_le hq (hends.1 h) hrepeats
    obtain ⟨-, hstop⟩ := hregular.repeats_within hq hrepeats
    omega
  · obtain ⟨hends, hnever⟩ := separated_ends_first hx
      (fun first q₀ es h => hsome ⟨first, q₀, es, h⟩) trailing separator
    exact ⟨iff_of_true hends fun k q h => absurd h (hnever k q),
      fun _ k q h => absurd h (hnever k q)⟩

/-- Digits with commas between them, and with one behind them. -/
theorem separated_ends_digits :
    let env : Environment := ⟨⟨#[], #[]⟩, ⟨.ascii, #[0x31, 0x2C, 0x32, 0x2C], by decide⟩, 4⟩
    let item : Rule := .token (.digits .decimal)
    let comma : Rule := .token (.literal ",")
    0 ≤ env.stop ∧ (∀ q, 0 ≤ q → q ≤ env.stop → env.Terminates item .silent q) ∧
    (∀ q, 0 ≤ q → q ≤ env.stop → env.Terminates comma .silent q) ∧
    ∀ trailing, ∀ k q, env.ComesTo trailing item comma .silent 0 k q →
      k ≤ 4 ∧ ¬ env.Repetition trailing item comma .silent q q := by
  intro env item comma
  have hrun : ∀ r ∈ [item, comma], ∀ q < 5,
      (env.parse 2 r .silent).answers q (fun _ => true) = true ∧
        (env.attempt 2 r q).toOption.isSome = true := by
    decide +kernel
  have hterminates : ∀ r ∈ [item, comma], ∀ q, 0 ≤ q → q ≤ env.stop →
      env.Terminates r .silent q := by
    intro r hr q _ hq
    obtain ⟨hparse, hattempt⟩ := hrun r hr q (Nat.lt_succ_of_le hq)
    obtain ⟨o, ho, -⟩ := Parse.exists_of_answers hparse
    refine ⟨⟨_, settles_of_ok ho⟩, 2, fun h => ?_⟩
    rw [h] at hattempt
    cases hattempt
  have hitem := hterminates item (by simp)
  have hcomma := hterminates comma (by simp)
  have hlist : ∀ trailing : Bool,
      (env.parse 8 (.separated trailing item comma) .silent).answers 0 (fun _ => true) = true := by
    decide +kernel
  refine ⟨Nat.zero_le _, hitem, hcomma, fun trailing k q hcomes => ?_⟩
  obtain ⟨o, ho, -⟩ := Parse.exists_of_answers (hlist trailing)
  obtain ⟨hiff, hbound⟩ := separated_ends_iff (Nat.zero_le _) hitem hcomma trailing
  have hends : ∃ x, env.ParseEnds (.separated trailing item comma) .silent 0 x :=
    ⟨_, settles_of_ok ho⟩
  exact ⟨hbound hends k q hcomes, hiff.1 hends k q hcomes⟩

/-- Positions with positions between them: each of them comes to an end everywhere, but the list
never does, however much fuel it is given. -/
theorem separated_position_endless :
    let env : Environment := ⟨⟨#[], #[]⟩, ⟨.utf8, #[], by decide⟩, 0⟩
    (∀ q, q ≤ env.stop → env.Terminates .position .silent q) ∧
    ∀ n, env.parse n (.listSep .position .position) .silent 0 = .error .exhausted ∧
      env.parse n (.listTrailing .position .position) .silent 0 = .error .exhausted := by
  intro env
  have hends : env.ParseEnds .position .silent 0
      (.ok ⟨some [.pos 0], 0, [.token .position ⟨0, 0⟩]⟩) := settles_of_ok (n := 1) rfl
  have hfinish : env.FinishEnds .position .silent 0
      (.ok ⟨some [.pos 0], 0, [.token .position ⟨0, 0⟩]⟩) :=
    ⟨fun h => (nomatch h), 2, _, rfl, rfl⟩
  have hposition : ∀ q, env.Terminates .position .silent q := fun q =>
    ⟨⟨.ok ⟨some [.pos q], q, [.token .position ⟨q, q⟩]⟩, settles_of_ok (n := 1) rfl⟩,
      1, fun h => (nomatch h)⟩
  have hexhausted : ∀ trailing : Bool, ∀ n,
      env.parse n (.separated trailing .position .position) .silent 0 = .error .exhausted := by
    intro trailing
    have hitem : env.ItemEnds trailing .position .silent 0
        (.ok ⟨some [.pos 0], 0, [.token .position ⟨0, 0⟩]⟩) := by
      cases trailing with
      | false => exact hends
      | true => exact hfinish
    exact separated_exhausted (Nat.le_refl 0) (fun q _ _ => hposition q)
      (fun q _ _ => hposition q) (.first hends) ⟨_, _, _, _, _, hfinish, hitem⟩
  exact ⟨fun q _ => hposition q, fun n => ⟨hexhausted false n, hexhausted true n⟩⟩

end Environment

end Phrase
