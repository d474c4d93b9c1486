import Phrase.Proofs.Parse.Attempt

/-!
# What a parse settles on

A parse that is made with more and more fuel keeps the first answer that it gives
(`Parse.Grows`), so it settles on that answer or stays exhausted (`Parse.Settles`).  Fuel is then
left out of what is said: there is one lemma for each way to put parses together, and where a rule
applies, trying it and going on settles on what parsing it does (`Environment.endAlike_attempt`).
-/

namespace Phrase

/-- An answer behind events that have been emitted before. -/
def behindEvents (es : List Event) (x : Except Halt (Outcome α)) : Except Halt (Outcome α) :=
  x.map fun o => ⟨o.result, o.position, es ++ o.events⟩

theorem behindEvents_append (es fs : List Event) (x : Except Halt (Outcome α)) :
    behindEvents (es ++ fs) x = behindEvents es (behindEvents fs x) := by
  cases x with
  | error e => rfl
  | ok o =>
    show Except.ok (Outcome.mk _ _ _) = _
    rw [List.append_assoc]
    rfl

theorem behindEvents_ne {es : List Event} {x : Except Halt (Outcome α)} :
    behindEvents es x ≠ .error .exhausted ↔ x ≠ .error .exhausted := by
  cases x with
  | error e => exact Iff.rfl
  | ok o => exact iff_of_true (fun h => nomatch h) (fun h => nomatch h)

namespace Parse

variable {α β σ : Type} {p q : Nat} {x : Except Halt (Outcome β)}

/-! ## More and more fuel -/

/-- More fuel keeps the answers of a parse. -/
def Grows (m : Nat → Parse α) : Prop := ∀ n k, n ≤ k → (m n).Approximates (m k)

/-- Given enough fuel, a parse ends with this answer; it may be a fault. -/
def Settles (m : Nat → Parse α) (p : Nat) (x : Except Halt (Outcome α)) : Prop :=
  x ≠ .error .exhausted ∧ ∃ n, m n p = x

/-- Given enough fuel, two parses that start at a position end alike. -/
def EndAlike (m m' : Nat → Parse α) (p : Nat) : Prop := ∀ x, Settles m p x ↔ Settles m' p x

theorem bind_of_some_eq {m : Parse α} {k : α → Parse β} {a : α} {es : List Event}
    (h : m p = .ok ⟨some a, q, es⟩) : (m >>= k) p = behindEvents es (k a q) := by
  rw [bind_of_some h]
  cases k a q <;> rfl

theorem bind_bind {γ : Type} (m : Parse α) (k : α → Parse β) (l : β → Parse γ) :
    (m >>= k) >>= l = m >>= fun a => k a >>= l := by
  funext p
  cases hm : m p with
  | error e => rw [bind_of_error (bind_of_error hm), bind_of_error hm]
  | ok o =>
    obtain ⟨result, q, es⟩ := o
    cases result with
    | none => rw [bind_of_none (bind_of_none hm), bind_of_none hm]
    | some a =>
      rw [bind_of_some_eq hm]
      cases hk : k a q with
      | error e =>
        rw [bind_of_error (bind_of_some_eq hm ▸ congrArg (behindEvents es) hk), bind_of_error hk]
        rfl
      | ok o =>
        obtain ⟨result, r, fs⟩ := o
        have hmk : (m >>= k) p = .ok ⟨result, r, es ++ fs⟩ := by
          rw [bind_of_some_eq hm, hk]
          rfl
        cases result with
        | none =>
          rw [bind_of_none hmk, bind_of_none hk]
          rfl
        | some b =>
          rw [bind_of_some_eq hmk, bind_of_some_eq hk, behindEvents_append]

theorem Below.bind {m m' : Parse α} {k k' : α → Parse β} (hm : m.Below Eq m' p)
    (hk : ∀ a q, (k a).Below Eq (k' a) q) : (m >>= k).Below Eq (m' >>= k') p :=
  Comparison.foretells_iff_below.1 ((Comparison.foretells_iff_below.2 hm).bind_eq
    fun a q => Comparison.foretells_iff_below.2 (hk a q))

theorem below_of_exhausted {m m' : Parse α} (h : m p = .error .exhausted) :
    m.Below Eq m' p := by
  rw [Below, h]
  exact .exhausted

section
variable {m m' : Nat → Parse α} {k k' : Nat → α → Parse β}

theorem grows_const (m : Parse α) : Grows fun _ => m := fun _ _ _ p => Below.refl m p

theorem Grows.bind (hm : Grows m) (hk : ∀ a, Grows fun n => k n a) :
    Grows fun n => m n >>= k n :=
  fun n l hle p => (hm n l hle p).bind fun a q => hk a n l hle q

/-! ## Answers -/

theorem settles_of_ok {o : Outcome α} {n : Nat} (h : m n p = .ok o) : Settles m p (.ok o) :=
  ⟨fun he => (nomatch he), n, h⟩

theorem settles_pure (a : α) (p : Nat) : Settles (fun _ => pure a) p (.ok ⟨some a, p, []⟩) :=
  settles_of_ok (n := 0) rfl

theorem Settles.later (hm : Grows m) {x : Except Halt (Outcome α)} (h : Settles m p x) :
    ∃ n, ∀ l, n ≤ l → m l p = x := by
  obtain ⟨hx, n, hn⟩ := h
  exact ⟨n, fun l hl => (hm n l hl p).eq hn hx⟩

theorem Settles.unique (hm : Grows m) {x y : Except Halt (Outcome α)} (hx : Settles m p x)
    (hy : Settles m p y) : x = y := by
  obtain ⟨n, hn⟩ := hx.later hm
  obtain ⟨l, hl⟩ := hy.later hm
  rw [← hn _ (Nat.le_max_left n l), hl _ (Nat.le_max_right n l)]

/-- Two parses end alike if each one's answers are the other one's, given some other fuel. -/
theorem endAlike_of_below (h : ∀ n, ∃ l, (m n).Below Eq (m' l) p)
    (h' : ∀ n, ∃ l, (m' n).Below Eq (m l) p) : EndAlike m m' p := by
  intro x
  constructor
  · rintro ⟨hx, n, hn⟩
    obtain ⟨l, hl⟩ := h n
    exact ⟨hx, l, hl.eq hn hx⟩
  · rintro ⟨hx, n, hn⟩
    obtain ⟨l, hl⟩ := h' n
    exact ⟨hx, l, hl.eq hn hx⟩

theorem EndAlike.trans {m'' : Nat → Parse α} (h : EndAlike m m' p) (h' : EndAlike m' m'' p) :
    EndAlike m m'' p := fun x => (h x).trans (h' x)

theorem EndAlike.refl (m : Nat → Parse α) (p : Nat) : EndAlike m m p := fun _ => Iff.rfl

theorem endAlike_of_eq (h : ∀ n, m n p = m' n p) : EndAlike m m' p := by
  intro x
  simp only [Settles, h]

/-! ## One parse behind the other -/

theorem Settles.bind_error {e : Halt} (h : Settles m p (.error e)) :
    Settles (fun n => m n >>= k n) p (.error e) := by
  obtain ⟨he, n, hn⟩ := h
  exact ⟨fun h => he (by cases h; rfl), n, bind_of_error hn⟩

theorem Settles.bind_none {es : List Event} (h : Settles m p (.ok ⟨none, q, es⟩)) :
    Settles (fun n => m n >>= k n) p (.ok ⟨none, q, es⟩) := by
  obtain ⟨-, n, hn⟩ := h
  exact settles_of_ok (bind_of_none hn)

theorem Settles.bind_some (hm : Grows m) (hk : ∀ a, Grows fun n => k n a) {a : α}
    {es : List Event} (h : Settles m p (.ok ⟨some a, q, es⟩)) (hx : Settles (fun n => k n a) q x) :
    Settles (fun n => m n >>= k n) p (behindEvents es x) := by
  obtain ⟨n, hn⟩ := h.later hm
  obtain ⟨l, hl⟩ := hx.later (hk a)
  refine ⟨behindEvents_ne.2 hx.1, max n l, ?_⟩
  show (m _ >>= k _) p = _
  rw [bind_of_some_eq (hn _ (Nat.le_max_left n l)), hl _ (Nat.le_max_right n l)]

/-- The first parse was at fault, or it has failed, or the second one comes behind it. -/
theorem Settles.bind_cases (h : Settles (fun n => m n >>= k n) p x) :
    (∃ e, Settles m p (.error e) ∧ x = .error e) ∨
    (∃ q es, Settles m p (.ok ⟨none, q, es⟩) ∧ x = .ok ⟨none, q, es⟩) ∨
    ∃ a q es y, Settles m p (.ok ⟨some a, q, es⟩) ∧ Settles (fun n => k n a) q y ∧
      x = behindEvents es y := by
  obtain ⟨hx, n, hn⟩ := h
  change (m n >>= k n) p = x at hn
  cases hm : m n p with
  | error e =>
    rw [bind_of_error hm] at hn
    subst hn
    exact .inl ⟨e, ⟨fun h => hx (by cases h; rfl), n, hm⟩, rfl⟩
  | ok o =>
    obtain ⟨result, q, es⟩ := o
    cases result with
    | none =>
      rw [bind_of_none hm] at hn
      exact .inr (.inl ⟨q, es, settles_of_ok hm, hn.symm⟩)
    | some a =>
      rw [bind_of_some_eq hm] at hn
      subst hn
      exact .inr (.inr ⟨a, q, es, _, settles_of_ok hm,
        ⟨behindEvents_ne.1 hx, n, rfl⟩, rfl⟩)

/-- Both parses have results if the second one has. -/
theorem settles_bind_ok_iff (hm : Grows m) (hk : ∀ a, Grows fun n => k n a) {b : β} {r : Nat}
    {es : List Event} :
    Settles (fun n => m n >>= k n) p (.ok ⟨some b, r, es⟩) ↔
      ∃ a q fs gs, Settles m p (.ok ⟨some a, q, fs⟩) ∧
        Settles (fun n => k n a) q (.ok ⟨some b, r, gs⟩) ∧ es = fs ++ gs := by
  constructor
  · intro h
    rcases h.bind_cases with ⟨_, _, h⟩ | ⟨_, _, _, h⟩ | ⟨a, q, fs, y, hsome, hy, h⟩
    · cases h
    · cases h
    · cases y with
      | error e => cases h
      | ok o =>
        obtain ⟨result, r, gs⟩ := o
        cases h
        exact ⟨a, q, fs, gs, hsome, hy, rfl⟩
  · rintro ⟨a, q, fs, gs, hsome, hy, rfl⟩
    exact hsome.bind_some hm hk hy

/-- The same behind a parse whose answer is known. -/
theorem Settles.bind_iff (hm : Grows m) (hk : ∀ a, Grows fun n => k n a) {a : α} {es : List Event}
    (h : Settles m p (.ok ⟨some a, q, es⟩)) :
    Settles (fun n => m n >>= k n) p x ↔
      ∃ y, Settles (fun n => k n a) q y ∧ x = behindEvents es y := by
  constructor
  · intro hx
    rcases hx.bind_cases with ⟨e, he, -⟩ | ⟨_, _, hnone, -⟩ | ⟨b, r, fs, y, hsome, hy, rfl⟩
    · cases h.unique hm he
    · cases h.unique hm hnone
    · cases h.unique hm hsome
      exact ⟨y, hy, rfl⟩
  · rintro ⟨y, hy, rfl⟩
    exact h.bind_some hm hk hy

/-- One parse behind the other ends, if the second one does wherever it is reached. -/
theorem exists_settles_bind (hm : Grows m) (hk : ∀ a, Grows fun n => k n a)
    (h : ∃ y, Settles m p y) (hbehind : ∀ a q es, Settles m p (.ok ⟨some a, q, es⟩) →
      ∃ y, Settles (fun n => k n a) q y) : ∃ x, Settles (fun n => m n >>= k n) p x := by
  obtain ⟨y, hy⟩ := h
  cases y with
  | error e => exact ⟨_, hy.bind_error⟩
  | ok o =>
    obtain ⟨result, q, es⟩ := o
    cases result with
    | none => exact ⟨_, hy.bind_none⟩
    | some a =>
      obtain ⟨z, hz⟩ := hbehind a q es hy
      exact ⟨_, hy.bind_some hm hk hz⟩

/-- Parses behind those that end alike end alike, if they do so wherever they are reached. -/
theorem EndAlike.bind (hm : Grows m) (hm' : Grows m') (hk : ∀ a, Grows fun n => k n a)
    (hk' : ∀ a, Grows fun n => k' n a) (h : EndAlike m m' p)
    (hbehind : ∀ a q es, Settles m p (.ok ⟨some a, q, es⟩) →
      EndAlike (fun n => k n a) (fun n => k' n a) q) :
    EndAlike (fun n => m n >>= k n) (fun n => m' n >>= k' n) p := by
  intro x
  constructor
  · intro hx
    rcases hx.bind_cases with ⟨e, he, rfl⟩ | ⟨_, _, hnone, rfl⟩ | ⟨a, q, es, y, hsome, hy, rfl⟩
    · exact ((h _).1 he).bind_error
    · exact ((h _).1 hnone).bind_none
    · exact ((h _).1 hsome).bind_some hm' hk' ((hbehind a q es hsome y).1 hy)
  · intro hx
    rcases hx.bind_cases with ⟨e, he, rfl⟩ | ⟨_, _, hnone, rfl⟩ | ⟨a, q, es, y, hsome, hy, rfl⟩
    · exact ((h _).2 he).bind_error
    · exact ((h _).2 hnone).bind_none
    · have hsome' := (h _).2 hsome
      exact hsome'.bind_some hm hk ((hbehind a q es hsome' y).2 hy)

end

/-! ## Loops -/

section
variable {step : Nat → σ → Parse (ForInStep σ)} (hstep : ∀ s, Grows fun n => step n s)

/-- Goes on with a loop, if the step has asked for it. -/
def proceed (more : σ → Parse σ) : ForInStep σ → Parse σ
  | .yield s => more s
  | .done s => return s

theorem iterate_succ (step : σ → Parse (ForInStep σ)) (fuel : Nat) (s : σ) :
    iterate step (fuel + 1) s = step s >>= proceed (iterate step fuel) := rfl

include hstep

theorem iterate_below {n l fuel fuel' : Nat} (hn : n ≤ l) (hfuel : fuel ≤ fuel') (s : σ) :
    (iterate (step n) fuel s).Approximates (iterate (step l) fuel' s) := fun _ =>
  Comparison.foretells_iff_below.1 (Excuse.Foretells.iterate
    (fun s p => Comparison.foretells_iff_below.2 (hstep s n l hn p)) (.inr ⟨rfl, hfuel⟩) s)

theorem grows_iterate (s : σ) : Grows fun n => iterate (step n) n s :=
  fun _ _ hle => iterate_below hstep hle hle s

theorem grows_proceed (y : ForInStep σ) :
    Grows fun n => proceed (fun s => iterate (step n) n s) y := by
  cases y with
  | yield s => exact grows_iterate hstep s
  | done s => exact grows_const _

/-- A loop makes a step and goes on. -/
theorem endAlike_iterate (s : σ) (p : Nat) :
    EndAlike (fun n => iterate (step n) n s)
      (fun n => step n s >>= proceed fun s => iterate (step n) n s) p := by
  refine endAlike_of_below (fun n => ⟨n, ?_⟩) fun n => ⟨n + 1, ?_⟩
  · rw [← iterate_succ]
    exact iterate_below hstep (Nat.le_refl n) (Nat.le_succ n) s p
  · rw [← iterate_succ]
    exact iterate_below hstep (Nat.le_succ n) (Nat.le_refl _) s p

/-- A loop ends where its step does, and the loop behind it if it asks for that. -/
theorem exists_settles_iterate {s : σ} (h : ∃ y, Settles (fun n => step n s) p y)
    (hmore : ∀ t q es, Settles (fun n => step n s) p (.ok ⟨some (.yield t), q, es⟩) →
      ∃ y, Settles (fun n => iterate (step n) n t) q y) :
    ∃ x, Settles (fun n => iterate (step n) n s) p x := by
  obtain ⟨x, hx⟩ : ∃ x, Settles (fun n => step n s >>= proceed fun s => iterate (step n) n s) p x :=
    exists_settles_bind (hstep s) (grows_proceed hstep) h fun y q es hy => by
      cases y with
      | yield t => exact hmore t q es hy
      | done t => exact ⟨_, settles_pure t q⟩
  exact ⟨x, (endAlike_iterate hstep s p x).2 hx⟩

/-- A step that leaves a loop ends it. -/
theorem settles_iterate_of_done {s t : σ} {es : List Event}
    (h : Settles (fun n => step n s) p (.ok ⟨some (.done t), q, es⟩)) :
    Settles (fun n => iterate (step n) n s) p (.ok ⟨some t, q, es⟩) := by
  have hloop := h.bind_some (hstep s) (grows_proceed hstep) (settles_pure t q)
  rw [behindEvents, Except.map, List.append_nil] at hloop
  exact (endAlike_iterate hstep s p _).2 hloop

/-- A step that asks for more is followed by the loop. -/
theorem settles_iterate_of_yield {s t : σ} {es : List Event} {x : Except Halt (Outcome σ)}
    (h : Settles (fun n => step n s) p (.ok ⟨some (.yield t), q, es⟩))
    (hx : Settles (fun n => iterate (step n) n t) q x) :
    Settles (fun n => iterate (step n) n s) p (behindEvents es x) :=
  (endAlike_iterate hstep s p _).2 (h.bind_some (hstep s) (grows_proceed hstep) hx)

end

end Parse

/-! ## Rules -/

namespace Environment

open Parse

variable {env : Environment} {r : Rule} {scope : Scope} {p n : Nat} {β : Type}

theorem grows_parse (env : Environment) (r : Rule) (scope : Scope) :
    Grows fun n => env.parse n r scope :=
  fun _ _ hle => (env.calls_below hle).parse r scope

/-- What is tried and gone on with grows, if that is so of what comes of it. -/
theorem grows_attempt (env : Environment) (r : Rule) {k : Nat → Option Commit → Parse β}
    (hnone : Grows fun n => k n none)
    (hsome : ∀ n l commit commit', n ≤ l → commit.Approximates commit' →
      (k n (some commit)).Approximates (k l (some commit'))) :
    Grows fun n => look (env.attempt n r) >>= k n := fun n l hle _ =>
  Comparison.foretells_iff_below.1 (attempt_bind_foretells (s := .silent)
    (env.calls_below hle).skips rfl
    (fun q => Comparison.foretells_iff_below.2 (hnone n l hle q))
    fun commit commit' q hcommit => Comparison.foretells_iff_below.2
      (hsome n l commit commit' hle (Comparison.commits_iff_approximates.1 hcommit) q))

/-- A parse ends as the rules inside of it let it. -/
theorem endAlike_parse (env : Environment) (r : Rule) (scope : Scope) (p : Nat) :
    EndAlike (fun n => env.parse n r scope) (fun n => env.parseRule (env.calls n) r scope) p := by
  refine endAlike_of_below (fun n => ⟨n, ?_⟩) fun n => ⟨n + 1, ?_⟩
  · rw [← parse_succ]
    exact grows_parse env r scope n (n + 1) (Nat.le_succ n) p
  · rw [← parse_succ]
    exact Parse.Below.refl _ p

theorem attempt_cases {c? : Option Commit} (h : env.attempt n r p = .ok c?) (l : Nat) :
    env.attempt l r p = .error .exhausted ∨
      ∃ c?', env.attempt l r p = .ok c?' ∧ (c?' = none ↔ c? = none) := by
  obtain ⟨d?, hd, hrel⟩ := attempt_mono (Nat.le_max_left n l) h
  have hbelow : Phrase.Below _ (env.attempt l r p) (env.attempt (max n l) r p) :=
    (env.calls_below (Nat.le_max_right n l)).attempt r p
  rw [hd] at hbelow
  generalize env.attempt l r p = y at hbelow
  cases hbelow with
  | exhausted => exact .inl rfl
  | ok hrel' =>
    refine .inr ⟨_, rfl, ?_⟩
    cases hrel with
    | none =>
      cases hrel' with
      | none => exact Iff.rfl
    | some _ =>
      cases hrel' with
      | some _ => exact iff_of_false (fun h => nomatch h) (fun h => nomatch h)

/-- Where a rule applies, whoever tries it and goes on ends as whoever parses it. -/
theorem endAlike_attempt {commit : Commit} (h : env.attempt n r p = .ok (some commit))
    {k : Nat → Option Commit → Parse β} {f : Nat → Outputs → Parse β}
    (hf : ∀ a, Grows fun l => f l a)
    (hk : ∀ l commit, k l (some commit) p = (commit scope >>= f l) p) :
    EndAlike (fun l => look (env.attempt l r) >>= k l)
      (fun l => env.parse l r scope >>= f l) p := by
  refine endAlike_of_below (fun l => ?_) fun l => ⟨max n (l + 1), ?_⟩
  · rcases attempt_cases h l with hl | ⟨c?, hl, hnone⟩
    · exact ⟨0, below_of_exhausted (bind_of_error (look_of_error hl))⟩
    · obtain ⟨c, rfl⟩ := Option.ne_none_iff_exists'.1 fun hc => nomatch hnone.1 hc
      refine ⟨l + 1, ?_⟩
      rw [Parse.Below, bind_of_quiet (look_eq hl), hk]
      exact (commit_between scope hl).2.bind fun a => hf a l (l + 1) (Nat.le_succ l)
  · obtain ⟨c?, hl, hrel⟩ := attempt_mono (Nat.le_max_left n (l + 1)) h
    cases hrel with
    | @some _ c _ =>
      have hle : l ≤ max n (l + 1) - 1 := by omega
      have hparse := (grows_parse env r scope _ _ hle p).trans (commit_between scope hl).1
      rw [Parse.Below, bind_of_quiet (look_eq hl), hk]
      exact hparse.bind fun a => hf a l _ (by omega)

/-- Where a rule does not apply. -/
theorem endAlike_declined (h : env.attempt n r p = .ok none) {k : Nat → Option Commit → Parse β}
    (hk : Grows fun l => k l none) :
    EndAlike (fun l => look (env.attempt l r) >>= k l) (fun l => k l none) p := by
  refine endAlike_of_below (fun l => ⟨l, ?_⟩) fun l => ⟨max n l, ?_⟩
  · rcases attempt_cases h l with hl | ⟨c?, hl, hnone⟩
    · exact below_of_exhausted (bind_of_error (look_of_error hl))
    · obtain rfl := hnone.2 rfl
      rw [Parse.Below, bind_of_quiet (look_eq hl)]
      exact Parse.Below.refl _ p
  · obtain ⟨c?, hl, hrel⟩ := attempt_mono (Nat.le_max_left n l) h
    cases hrel with
    | none =>
      rw [Parse.Below, bind_of_quiet (look_eq hl)]
      exact hk l _ (Nat.le_max_right n l) p

end Environment

end Phrase
