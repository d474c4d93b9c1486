import Phrase.Proofs.Parse.Lockstep

/-!
# Every rule goes in step

If the rules inside of a rule go in step, so does the rule, whether it is parsed or goes on from
an attempt.  By induction on the fuel that is so for the whole interpreter
(`Lockstep.keptBy`).

A rule used as a token shows only where it ends and whether it matches.  So it may go in step by
a law that says less, and the induction takes that as given.
-/

namespace Phrase.Lockstep

variable {env env' : Environment} {calls calls' : Calls}

/-- What is known of a rule used as a token: it matches in both environments or in none, and
ends at paired positions. -/
abbrev EndsAlike (law : Lockstep env env') (m m' : Parse Outputs) (p p' : Nat) : Prop :=
  InStep (fun o o' => law.At o.position o'.position ∧ o.result.isSome = o'.result.isSome)
    (m p) (m' p')

/-- What is known of the rules inside of a rule: they go in step. -/
structure KeptBy (law : Lockstep env env') (calls calls' : Calls) : Prop where
  parse : ∀ {r scope p p'}, law.Admits r → law.AdmitsScope scope → law.At p p' →
    law.OutputsAlike (calls.parse r scope) (calls'.parse r scope) p p'
  attempt : ∀ {r scope p p'}, law.Admits r → law.AdmitsScope scope → law.At p p' →
    law.AttemptAlike (calls.attempt r) (calls'.attempt r) scope p p'
  token : ∀ {r p p'}, law.Inner r → law.At p p' →
    law.EndsAlike (calls.parse r .silent) (calls'.parse r .silent) p p'
  bounds : (EventLaw.bounds env).KeptBy calls
  fuel : calls.fuel = calls'.fuel

/-- A symbol that is found in both environments, with the same value, or in none. -/
abbrev FoundAlike (law : Lockstep env env') (p : Nat) :
    Option (Value × Nat) → Option (Value × Nat) → Prop :=
  Option.Rel fun found found' => found.1 = found'.1 ∧ law.Val found.1 found.1 ∧
    law.At found.2 found'.2 ∧ p ≤ found.2

section
variable {law : Lockstep env env'} {scope : Scope} {p p' stop stop' : Nat} {α α' β β' : Type}
  {R : β → β' → Nat → Nat → Prop}

theorem AdmitsScope.insideWhitespace (hs : law.AdmitsScope scope) :
    law.AdmitsScope scope.insideWhitespace :=
  ⟨fun _ h => (nomatch h), law.builds_discard, hs.state⟩

theorem AdmitsScope.withoutAuto (hs : law.AdmitsScope scope) :
    law.AdmitsScope scope.withoutAuto := ⟨hs.whitespace, hs.builds, hs.state⟩

theorem AdmitsScope.inside {production : Production} (hs : law.AdmitsScope scope)
    (hbuilds : law.Builds production.value)
    (hw : ∀ w, production.whitespace = some w → law.Admits w) :
    law.AdmitsScope (scope.inside production) := by
  refine ⟨fun w h => ?_, hbuilds, hs.state⟩
  unfold Scope.inside at h
  simp only at h
  split at h
  · exact hw w h
  · rcases Option.or_eq_some_iff.1 h with h | ⟨-, h⟩
    · exact hw w h
    · exact hs.whitespace w h

theorem alike_attempt {a a' : Attempt} {commit? : Option Commit → Parse β}
    {commit?' : Option Commit → Parse β'} (hp : law.At p p')
    (ha : law.AttemptAlike a a' scope p p')
    (hnone : law.Alike (commit? none) (commit?' none) p p' R)
    (hsome : ∀ commit commit', law.OutputsAlike (commit scope) (commit' scope) p p' →
      law.Alike (commit? (some commit)) (commit?' (some commit')) p p' R) :
    law.Alike (Parse.look a >>= commit?) (Parse.look a' >>= commit?') p p' R := by
  have hlook : law.Alike (Parse.look a) (Parse.look a') p p' fun c? c?' q q' =>
      (q = p ∧ q' = p') ∧ Option.Rel (fun commit commit' =>
        law.OutputsAlike (commit scope) (commit' scope) p p') c? c?' :=
    alike_look hp (InStep.imp (fun _ _ h => ⟨⟨rfl, rfl⟩, h⟩) ha)
  refine hlook.bind ?_
  rintro c? c?' q q' - ⟨⟨rfl, rfl⟩, hc⟩
  cases hc with
  | none => exact hnone
  | some hc => exact hsome _ _ hc

/-! ## Steps -/

theorem alike_report (kind : ErrorKind) (hp : law.At p p') {q q' : Nat} (hq : law.At q q') :
    law.Alike (Environment.report scope kind ⟨p, q⟩) (Environment.report scope kind ⟨p', q'⟩)
      q q' fun _ _ r r' => r = q ∧ r' = q' :=
  alike_emit hq (.error (law.kind_refl kind) hp hq rfl)

theorem alike_report_fail (kind : ErrorKind) (hp : law.At p p') :
    law.Alike (Environment.report scope kind ⟨p, p⟩ >>= fun _ => Parse.fail)
      (Environment.report scope kind ⟨p', p'⟩ >>= fun _ => Parse.fail) p p' R :=
  (alike_report kind hp hp).bind fun _ _ _ _ hq _ => alike_fail hq

theorem passToken_alike (kind : TokenKind) (hp : law.At p p') (hstop : law.At stop stop')
    (hle : p ≤ stop) : law.Alike (env.passToken kind stop) (env'.passToken kind stop') p p'
      fun _ _ q q' => q = stop ∧ q' = stop' :=
  alike_of_eq (Environment.passToken_eq kind (law.le_stop hstop).1)
    (Environment.passToken_eq kind (law.le_stop hstop).2)
    ⟨hstop, .cons (.token kind hp hstop hle) .nil, .some ⟨rfl, rfl⟩⟩

theorem reportFailure_fail_alike {f f' : TokenFailure} (hp : law.At p p')
    (hf : TokenMatch.Alike law.At law.Kind (.error f) (.error f')) (hle : p ≤ f.stop) :
    law.Alike (env.reportFailure f scope >>= fun _ => Parse.fail)
      (env'.reportFailure f' scope >>= fun _ => Parse.fail) p p' R := by
  obtain ⟨hstop, hstart, hlast, hkind⟩ := hf
  have hle' := (law.le_iff hp hstop).1 hle
  have hlt := law.lt_iff hp hstop
  have herror : List.Forall₂ law.EventAlike [.error ⟨f.kind, f.range, scope.production⟩]
      [.error ⟨f'.kind, f'.range, scope.production⟩] :=
    .cons (.error hkind hstart hlast rfl) .nil
  refine Alike.bind (R := fun _ _ _ _ => True) (alike_of_eq
    (Environment.reportFailure_eq scope hle (law.le_stop hstop).1)
    (Environment.reportFailure_eq scope hle' (law.le_stop hstop).2)
    ⟨hstop, ?_, .some trivial⟩) fun _ _ _ _ hq _ => alike_fail hq
  by_cases h : p < f.stop
  · rw [if_pos h, if_pos (hlt.1 h)]
    exact List.rel_append (.cons (.token .error hp hstop hle) .nil) herror
  · rw [if_neg h, if_neg fun h' => h (hlt.2 h')]
    exact herror

theorem refused_alike (kind : TokenKind) (error : ErrorKind) (hp : law.At p p')
    (hstop : law.At stop stop') (hle : p ≤ stop) :
    law.Alike (env.passToken kind stop >>= fun _ =>
        Environment.report scope error ⟨p, stop⟩ >>= fun _ => Parse.fail)
      (env'.passToken kind stop' >>= fun _ =>
        Environment.report scope error ⟨p', stop'⟩ >>= fun _ => Parse.fail) p p' R := by
  refine (passToken_alike kind hp hstop hle).bind ?_
  rintro _ _ q q' hq ⟨rfl, rfl⟩
  exact (alike_report error hp hq).bind fun _ _ _ _ hr _ => alike_fail hr

theorem refuseSymbol_alike (kind : TokenKind) (hp : law.At p p') (hstop : law.At stop stop')
    (hle : p ≤ stop) : law.Alike (env.refuseSymbol kind stop scope)
      (env'.refuseSymbol kind stop' scope) p p' fun vs vs' _ _ => List.Forall₂ law.Val vs vs' := by
  refine (alike_position hp).bind ?_
  rintro begin begin' q q' - ⟨⟨rfl, rfl⟩, rfl, rfl⟩
  exact refused_alike _ _ hp hstop hle

/-! ## Symbols -/

theorem findSymbol_alike (table : Nat) (hp : law.At p p') (hstop : law.At stop stop')
    (hle : p ≤ stop) : law.FoundAlike p (env.findSymbol table ⟨env.source, p, stop⟩)
      (env'.findSymbol table ⟨env'.source, p', stop'⟩) := by
  have hfound := law.symbol table hp hstop hle
  cases hs : env.findSymbol table ⟨env.source, p, stop⟩ with
  | none =>
    rw [hs] at hfound
    generalize env'.findSymbol table ⟨env'.source, p', stop'⟩ = found' at hfound ⊢
    cases hfound
    exact .none
  | some found =>
    rw [hs] at hfound
    have hbounds := Environment.findSymbol_le (c := ⟨env.source, p, stop⟩) hle hs
    have hval := law.val_symbol hs
    generalize env'.findSymbol table ⟨env'.source, p', stop'⟩ = found' at hfound ⊢
    cases hfound with
    | some h => exact .some ⟨h.1, hval, h.2, hbounds.1⟩

theorem findSymbolTo_alike (table : Nat) (hp : law.At p p') (hstop : law.At stop stop')
    (hle : p ≤ stop) : ∃ v? v?', env.findSymbolTo table stop p = .ok v? ∧
      env'.findSymbolTo table stop' p' = .ok v?' ∧
      Option.Rel (fun v v' => v = v' ∧ law.Val v v) v? v?' := by
  have hpart : (env.cursor p).partialTo stop = .ok ⟨env.source, p, stop⟩ := by
    rw [Cursor.partialTo, if_pos ⟨hle, (law.le_stop hstop).1⟩]
    rfl
  have hpart' : (env'.cursor p').partialTo stop' = .ok ⟨env'.source, p', stop'⟩ := by
    rw [Cursor.partialTo, if_pos ⟨(law.le_iff hp hstop).1 hle, (law.le_stop hstop).2⟩]
    rfl
  have hfound := law.findSymbol_alike table hp hstop hle
  unfold Environment.findSymbolTo
  rw [hpart, hpart']
  simp only [bind, Except.bind]
  generalize env.findSymbol table ⟨env.source, p, stop⟩ = found at hfound ⊢
  generalize env'.findSymbol table ⟨env'.source, p', stop'⟩ = found' at hfound ⊢
  cases hfound with
  | none => exact ⟨_, _, rfl, rfl, .none⟩
  | @some f f' h =>
    obtain ⟨v, last⟩ := f
    obtain ⟨v', last'⟩ := f'
    obtain ⟨rfl, hval, hlast, -⟩ := h
    refine ⟨_, _, rfl, rfl, ?_⟩
    have heq := law.eq_iff hlast hstop
    simp only at heq ⊢
    by_cases h : last = stop
    · rw [if_pos h, if_pos (heq.1 h)]
      exact .some ⟨rfl, hval⟩
    · rw [if_neg h, if_neg fun h' => h (heq.2 h')]
      exact .none

theorem findKeyword_alike (table : Nat) (trailing : CharClass) (hp : law.At p p') :
    ∃ found found', env.findKeyword table trailing p = .ok found ∧
      env'.findKeyword table trailing p' = .ok found' ∧ law.FoundAlike p found found' := by
  have hfound := law.findSymbol_alike table hp law.at_stop (law.le_stop hp).1
  change law.FoundAlike p (env.findSymbol table (env.cursor p))
    (env'.findSymbol table (env'.cursor p')) at hfound
  unfold Environment.findKeyword
  generalize env.findSymbol table (env.cursor p) = found at hfound ⊢
  generalize env'.findSymbol table (env'.cursor p') = found' at hfound ⊢
  cases hfound with
  | none => exact ⟨_, _, rfl, rfl, .none⟩
  | @some f f' h =>
    obtain ⟨v, stop⟩ := f
    obtain ⟨v', stop'⟩ := f'
    obtain ⟨rfl, hval, hstop, hle⟩ := h
    simp only at hval hstop hle ⊢
    rw [Cursor.moveTo_eq (law.le_stop hstop).1, Cursor.moveTo_eq (law.le_stop hstop).2]
    refine ⟨_, _, rfl, rfl, ?_⟩
    have htrailing := law.trailing trailing hstop
    change law.FoundAlike p
      (if (trailing.matchOne (env.cursor stop)).isSome then none else some (v, stop))
      (if (trailing.matchOne (env'.cursor stop')).isSome then none else some (v, stop'))
    rw [htrailing]
    split
    · exact .none
    · exact .some ⟨rfl, hval, hstop, hle⟩

end

section
variable {law : Lockstep env env'} (hcalls : law.KeptBy calls calls') {scope : Scope}
  {p p' stop stop' : Nat} {β β' : Type} {R : β → β' → Nat → Nat → Prop}

include hcalls

/-! ## Whitespace -/

theorem skipBranch_alike {w : Rule} (hw : law.Admits w) (hs : law.AdmitsScope scope)
    (hp : law.At p p') :
    law.Steps (Environment.skipBranch calls w scope) (Environment.skipBranch calls' w scope)
      p p' := by
  unfold Environment.skipBranch
  rw [← hcalls.fuel]
  refine alike_iterate (T := fun _ _ => True) (fun _ _ q q' hq _ => ?_) _ hp trivial
  refine alike_attempt hq (hcalls.attempt hw hs hq) (alike_pure hq (.done trivial)) ?_
  intro commit commit' hcommit
  refine (alike_position hq).bind ?_
  rintro before before' r r' - ⟨⟨rfl, rfl⟩, rfl, rfl⟩
  refine hcommit.bind fun _ _ _ _ hs _ => ?_
  refine (alike_position hs).bind ?_
  rintro position position' t t' ht ⟨⟨rfl, rfl⟩, rfl, rfl⟩
  have heq := law.eq_iff ht hq
  by_cases h : t = r
  · rw [if_pos h, if_pos (heq.1 h)]
    exact alike_pure ht (.done trivial)
  · rw [if_neg h, if_neg fun h' => h (heq.2 h')]
    exact alike_pure ht (.yield trivial)

theorem skipWith_alike {w : Rule} (hw : law.Admits w) (hs : law.AdmitsScope scope)
    (hp : law.At p p') :
    law.Steps (Environment.skipWith calls w scope) (Environment.skipWith calls' w scope) p p' :=
  (skipBranch_alike hcalls hw hs.insideWhitespace hp).asOneToken hp _

theorem skipScopeWhitespace_alike (hs : law.AdmitsScope scope) (hp : law.At p p') :
    law.Steps (Environment.skipScopeWhitespace calls scope)
      (Environment.skipScopeWhitespace calls' scope) p p' := by
  unfold Environment.skipScopeWhitespace
  split
  · next w hw => exact skipWith_alike hcalls (hs.whitespace w hw) hs hp
  · exact alike_pure hp trivial

theorem skipWhitespace_alike (hs : law.AdmitsScope scope) (hp : law.At p p') :
    law.Steps (Environment.skipWhitespace calls scope) (Environment.skipWhitespace calls' scope)
      p p' := by
  unfold Environment.skipWhitespace
  split
  · exact skipScopeWhitespace_alike hcalls hs hp
  · exact alike_pure hp trivial

/-! ## Tokens -/

theorem finishToken_alike (kind : TokenKind) (hs : law.AdmitsScope scope) (hp : law.At p p')
    (hstop : law.At stop stop') (hle : p ≤ stop) :
    law.Steps (env.finishToken calls kind stop scope) (env'.finishToken calls' kind stop' scope)
      p p' :=
  (passToken_alike kind hp hstop hle).bind fun _ _ _ _ hq _ => skipWhitespace_alike hcalls hs hq

theorem matchToken_alike {r : Rule} {t : Token} (hr : law.Admits r) (ht : r.token? = some t)
    (hp : law.At p p') : InStep (fun m m' => m.Alike law.At law.Kind m' ∧ m.Within p env.stop)
      (env.matchToken calls t p) (env'.matchToken calls' t p') := by
  have hwithin := EventLaw.matchToken_within hcalls.bounds t (law.le_stop hp).1
  suffices h : InStep (TokenMatch.Alike law.At law.Kind) (env.matchToken calls t p)
      (env'.matchToken calls' t p') by
    generalize env.matchToken calls t p = x at h hwithin ⊢
    generalize env'.matchToken calls' t p' = y at h ⊢
    cases h with
    | exhausted => exact .exhausted
    | ok h => exact .ok ⟨h, hwithin⟩
  by_cases hrule : ∃ s kind, t = .rule s kind
  · obtain ⟨s, kind, rfl⟩ := hrule
    have hinner : InStep _ (calls.parse s .silent p) (calls'.parse s .silent p') :=
      hcalls.token (law.inner hr ht) hp
    unfold Environment.matchToken
    simp only
    generalize calls.parse s .silent p = x at hinner ⊢
    generalize calls'.parse s .silent p' = y at hinner ⊢
    cases hinner with
    | exhausted => exact .exhausted
    | @ok o o' h =>
      obtain ⟨result, q, es⟩ := o
      obtain ⟨result', q', es'⟩ := o'
      obtain ⟨hq, hsome⟩ := h
      cases result with
      | none =>
        cases result' with
        | none => exact .ok ⟨hq, hp, hq, law.kind_refl _⟩
        | some _ => cases hsome
      | some _ =>
        cases result' with
        | none => cases hsome
        | some _ => exact .ok hq
  · obtain ⟨m, m', hm, hm', halike⟩ := law.matched hr ht (fun s kind h => hrule ⟨s, kind, h⟩) hp
    have heq : ∀ {env : Environment} {calls : Calls} {p : Nat} {m : TokenMatch},
        t.matchUnits? (env.cursor p) = .ok (some m) → env.matchToken calls t p = .ok m := by
      intro env calls p m hm
      unfold Environment.matchToken
      split
      · exact absurd ⟨_, _, rfl⟩ hrule
      · rw [hm]
    rw [heq hm, heq hm']
    exact .ok halike

theorem expectToken_alike {r : Rule} {t : Token} (hr : law.Admits r) (ht : r.token? = some t)
    (hp : law.At p p') : law.Alike (env.expectToken calls t scope)
      (env'.expectToken calls' t scope) p p' fun stop stop' q q' =>
        (q = p ∧ q' = p') ∧ law.At stop stop' ∧ p ≤ stop := by
  unfold Environment.expectToken
  have hlook : law.Alike (Parse.look (env.matchToken calls t))
      (Parse.look (env'.matchToken calls' t)) p p' fun m m' q q' => (q = p ∧ q' = p') ∧
        m.Alike law.At law.Kind m' ∧ m.Within p env.stop :=
    alike_look hp (InStep.imp (fun _ _ h => ⟨⟨rfl, rfl⟩, h⟩) (matchToken_alike hcalls hr ht hp))
  refine hlook.bind ?_
  rintro m m' q q' hq ⟨⟨rfl, rfl⟩, halike, hwithin⟩
  cases m with
  | ok stop =>
    cases m' with
    | ok stop' => exact alike_pure hq ⟨⟨rfl, rfl⟩, halike, hwithin.1⟩
    | error f' => exact halike.elim
  | error f =>
    cases m' with
    | ok stop' => exact halike.elim
    | error f' =>
      obtain ⟨hstart, hrange, hread, -⟩ := hwithin
      exact reportFailure_fail_alike hq halike (by omega)

theorem commitToken_alike (t : Token) (hs : law.AdmitsScope scope) (hp : law.At p p')
    (hstop : law.At stop stop') (hle : p ≤ stop) :
    law.OutputsAlike (env.commitToken calls t stop scope) (env'.commitToken calls' t stop' scope)
      p p' :=
  (finishToken_alike hcalls t.kind hs hp hstop hle).bind fun _ _ _ _ hq _ => alike_pure hq .nil

theorem commitCapture_alike (t : Token) (hs : law.AdmitsScope scope) (hp : law.At p p')
    (hstop : law.At stop stop') (hle : p ≤ stop) :
    law.OutputsAlike (env.commitCapture calls t stop scope)
      (env'.commitCapture calls' t stop' scope) p p' := by
  refine (alike_position hp).bind ?_
  rintro begin begin' q q' - ⟨⟨rfl, rfl⟩, rfl, rfl⟩
  exact (finishToken_alike hcalls t.kind hs hp hstop hle).bind fun _ _ _ _ hr _ =>
    alike_pure hr (.cons (law.val_lexeme hp hstop hle) .nil)

theorem commitInteger_alike (type : IntegerType) (radix : Radix) (hs : law.AdmitsScope scope)
    (hp : law.At p p') (hstop : law.At stop stop') (hle : p ≤ stop) :
    law.OutputsAlike (env.commitInteger calls type radix stop scope)
      (env'.commitInteger calls' type radix stop' scope) p p' := by
  unfold Environment.commitInteger
  refine (alike_position hp).bind ?_
  rintro begin begin' q q' - ⟨⟨rfl, rfl⟩, rfl, rfl⟩
  obtain ⟨us, us', hus, hus', hnumber⟩ := law.number hp hstop hle
  rw [hus, hus']
  refine Alike.bind (R := fun digits digits' r r' => (digits = us ∧ digits' = us') ∧
    r = q ∧ r' = q') (alike_lift hp ⟨⟨rfl, rfl⟩, rfl, rfl⟩) ?_
  rintro digits digits' r r' - ⟨⟨rfl, rfl⟩, rfl, rfl⟩
  rw [hnumber type radix]
  split
  · exact (finishToken_alike hcalls .digits hs hp hstop hle).bind fun _ _ _ _ hr _ =>
      alike_pure hr (.cons (law.val_int _) .nil)
  · exact refused_alike _ _ hp hstop hle

theorem commitSymbol_alike (kind : TokenKind) {v : Value} (hv : law.Val v v)
    (hs : law.AdmitsScope scope) (hp : law.At p p') (hstop : law.At stop stop') (hle : p ≤ stop) :
    law.OutputsAlike (env.commitSymbol calls kind v stop scope)
      (env'.commitSymbol calls' kind v stop' scope) p p' :=
  (finishToken_alike hcalls kind hs hp hstop hle).bind fun _ _ _ _ hq _ =>
    alike_pure hq (.cons hv .nil)

/-! ## Sequences -/

theorem andThen_alike {first first' : Parse Outputs} {rest : Rule} (hrest : law.Admits rest)
    (hs : law.AdmitsScope scope) (hfirst : law.OutputsAlike first first' p p') :
    law.OutputsAlike (Environment.andThen calls first rest scope)
      (Environment.andThen calls' first' rest scope) p p' :=
  hfirst.bind fun _ _ _ _ hq hvs => (hcalls.parse hrest hs hq).bind fun _ _ _ _ hr hws =>
    alike_pure hr (List.rel_append hvs hws)

theorem thenSkip_alike {first first' : Parse Outputs} (hs : law.AdmitsScope scope)
    (hfirst : law.OutputsAlike first first' p p') :
    law.OutputsAlike (Environment.thenSkip calls first scope)
      (Environment.thenSkip calls' first' scope) p p' :=
  hfirst.bind fun _ _ _ _ hq hvs => (skipWhitespace_alike hcalls hs hq).bind
    fun _ _ _ _ hr _ => alike_pure hr hvs

/-! ## Repetition -/

theorem moreItems_alike {item : Rule} (hi : law.Admits item) (hs : law.AdmitsScope scope)
    {c c' : Container} (hp : law.At p p') (hc : law.Held c c') :
    law.Alike (Environment.moreItems calls item scope c)
      (Environment.moreItems calls' item scope c') p p' fun c c' _ _ => law.Held c c' := by
  unfold Environment.moreItems
  rw [← hcalls.fuel]
  refine alike_iterate (fun c c' q q' hq hc => ?_) _ hp hc
  refine alike_attempt hq (hcalls.attempt hi hs hq) (alike_pure hq (.done hc)) ?_
  intro commit commit' hcommit
  refine (alike_position hq).bind ?_
  rintro before before' r r' - ⟨⟨rfl, rfl⟩, rfl, rfl⟩
  refine hcommit.bind fun vs vs' _ _ ht hvs => ?_
  refine (alike_position ht).bind ?_
  rintro position position' t t' ht ⟨⟨rfl, rfl⟩, rfl, rfl⟩
  have heq := law.eq_iff ht hq
  have hpush := law.held_push hs.builds hc hvs
  by_cases h : t = r
  · rw [if_pos h, if_pos (heq.1 h)]
    exact alike_pure ht (.done hpush)
  · rw [if_neg h, if_neg fun h' => h (heq.2 h')]
    exact alike_pure ht (.yield hpush)

theorem listFrom_alike {item : Rule} (hi : law.Admits item) (hs : law.AdmitsScope scope)
    {first first' : Parse Outputs} (hfirst : law.OutputsAlike first first' p p') :
    law.OutputsAlike (Environment.listFrom calls item scope first)
      (Environment.listFrom calls' item scope first') p p' :=
  hfirst.bind fun _ _ _ _ hq hvs =>
    (moreItems_alike hcalls hi hs hq
      (law.held_push hs.builds (law.held_container hs.builds hs.state) hvs)).bind fun _ _ _ _ hr hc =>
        alike_pure hr (.cons (law.val_finish hc) .nil)

theorem separatedItems_alike {item separator : Rule} (hi : law.Admits item)
    (hsep : law.Admits separator) (hs : law.AdmitsScope scope) {c c' : Container}
    (hp : law.At p p') (hc : law.Held c c') :
    law.Alike (Environment.separatedItems calls item separator scope c)
      (Environment.separatedItems calls' item separator scope c') p p'
      fun c c' _ _ => law.Held c c' := by
  unfold Environment.separatedItems
  rw [← hcalls.fuel]
  refine alike_iterate (fun c c' q q' hq hc => ?_) _ hp hc
  refine alike_attempt hq (hcalls.attempt hsep hs hq) (alike_pure hq (.done hc)) ?_
  intro commit commit' hcommit
  refine hcommit.bind fun _ _ r r' hr _ => ?_
  exact (hcalls.parse hi hs hr).bind fun _ _ _ _ ht hvs =>
    alike_pure ht (.yield (law.held_push hs.builds hc hvs))

theorem trailedItems_alike {item separator : Rule} (hi : law.Admits item)
    (hsep : law.Admits separator) (hs : law.AdmitsScope scope) {c c' : Container}
    (hp : law.At p p') (hc : law.Held c c') :
    law.Alike (Environment.trailedItems calls item separator scope c)
      (Environment.trailedItems calls' item separator scope c') p p'
      fun c c' _ _ => law.Held c c' := by
  unfold Environment.trailedItems
  rw [← hcalls.fuel]
  refine alike_iterate (fun c c' q q' hq hc => ?_) _ hp hc
  refine alike_attempt hq (hcalls.attempt hsep hs hq) (alike_pure hq (.done hc)) ?_
  intro commit commit' hcommit
  refine hcommit.bind fun _ _ r r' hr _ => ?_
  refine alike_attempt hr (hcalls.attempt hi hs hr) (alike_pure hr (.done hc)) ?_
  intro commit commit' hcommit
  exact hcommit.bind fun _ _ _ _ ht hvs =>
    alike_pure ht (.yield (law.held_push hs.builds hc hvs))

/-! ## Productions -/

theorem inProduction_alike (production : Production) {body body' : Commit}
    (hs : law.AdmitsScope scope) (hbuilds : law.Builds production.value) (hp : law.At p p')
    (hbody : law.OutputsAlike (body (scope.inside production)) (body' (scope.inside production))
      p p') :
    law.OutputsAlike (Environment.inProduction calls production scope body)
      (Environment.inProduction calls' production scope body') p p' := by
  unfold Environment.inProduction
  split
  · refine (alike_position hp).bind ?_
    rintro position position' q q' hq ⟨⟨rfl, rfl⟩, rfl, rfl⟩
    exact alike_report_fail _ hq
  · exact (hbody.between hp production.name).bind fun _ _ _ _ hq hvs =>
      (skipWhitespace_alike hcalls hs hq).bind fun _ _ _ _ hr _ =>
        alike_pure hr (.cons (law.val_call hbuilds hs.state hvs) .nil)

omit hcalls in
theorem defaults_alike (r : Rule) :
    List.Forall₂ law.Val (Environment.defaults r) (Environment.defaults r) :=
  List.forall₂_same.2 fun v hv => by
    rw [List.eq_of_mem_replicate hv]
    exact law.val_default

/-! ## All rules -/

theorem parseRule_alike {r : Rule} (hr : law.Admits r) (hs : law.AdmitsScope scope)
    (hp : law.At p p') :
    law.OutputsAlike (env.parseRule calls r scope) (env'.parseRule calls' r scope) p p' := by
  have hpart := fun s (h : s ∈ r.parts) => law.admits_part hr h
  cases r with
  | token t =>
    refine (expectToken_alike hcalls hr rfl hp).bind ?_
    rintro stop stop' q q' hq ⟨⟨rfl, rfl⟩, hstop, hle⟩
    exact commitToken_alike hcalls t hs hq hstop hle
  | capture t =>
    refine (expectToken_alike hcalls hr rfl hp).bind ?_
    rintro stop stop' q q' hq ⟨⟨rfl, rfl⟩, hstop, hle⟩
    exact commitCapture_alike hcalls t hs hq hstop hle
  | integer type radix =>
    refine (expectToken_alike hcalls hr rfl hp).bind ?_
    rintro stop stop' q q' hq ⟨⟨rfl, rfl⟩, hstop, hle⟩
    exact commitInteger_alike hcalls type radix hs hq hstop hle
  | position =>
    exact .ok ⟨hp, .cons (.token .position hp hp (Nat.le_refl p)) .nil,
      .some (.cons (law.val_pos hp) .nil)⟩
  | symbol table =>
    have hlook : law.Alike (Parse.look fun p => .ok (env.findSymbol table (env.cursor p)))
        (Parse.look fun p => .ok (env'.findSymbol table (env'.cursor p))) p p'
        fun found found' q q' => (q = p ∧ q' = p') ∧ law.FoundAlike p found found' :=
      alike_look hp
        (.ok ⟨⟨rfl, rfl⟩, law.findSymbol_alike table hp law.at_stop (law.le_stop hp).1⟩)
    refine hlook.bind ?_
    rintro found found' q q' hq ⟨⟨rfl, rfl⟩, hfound⟩
    cases hfound with
    | none =>
      refine (alike_position hq).bind ?_
      rintro position position' r r' hr ⟨⟨rfl, rfl⟩, rfl, rfl⟩
      exact alike_report_fail _ hr
    | @some f f' h =>
      obtain ⟨v, stop⟩ := f
      obtain ⟨v', stop'⟩ := f'
      obtain ⟨rfl, hv, hstop, hle⟩ := h
      exact commitSymbol_alike hcalls _ hv hs hq hstop hle
  | symbolOf table t =>
    refine (expectToken_alike hcalls hr rfl hp).bind ?_
    rintro stop stop' q q' hq ⟨⟨rfl, rfl⟩, hstop, hle⟩
    refine (alike_position hq).bind ?_
    rintro position position' r r' - ⟨⟨rfl, rfl⟩, rfl, rfl⟩
    obtain ⟨v?, v?', hv, hv', hsymbol⟩ := law.findSymbolTo_alike table hq hstop hle
    rw [hv, hv']
    refine Alike.bind (R := fun w? w?' t t' => (t = r ∧ t' = r') ∧ w? = v? ∧ w?' = v?')
      (alike_lift hq ⟨⟨rfl, rfl⟩, rfl, rfl⟩) ?_
    rintro w? w?' t t' - ⟨⟨rfl, rfl⟩, rfl, rfl⟩
    cases hsymbol with
    | none => exact refuseSymbol_alike _ hq hstop hle
    | some h =>
      obtain ⟨rfl, hval⟩ := h
      exact commitSymbol_alike hcalls _ hval hs hq hstop hle
  | symbolIdentifier table leading trailing =>
    refine (alike_position hp).bind ?_
    rintro position position' q q' hq ⟨⟨rfl, rfl⟩, rfl, rfl⟩
    obtain ⟨found, found', heq, heq', hfound⟩ := law.findKeyword_alike table trailing hq
    rw [heq, heq']
    refine Alike.bind (R := fun f f' r r' => (r = q ∧ r' = q') ∧ f = found ∧ f' = found')
      (alike_lift hq ⟨⟨rfl, rfl⟩, rfl, rfl⟩) ?_
    rintro f f' r r' hr' ⟨⟨rfl, rfl⟩, rfl, rfl⟩
    cases hfound with
    | none =>
      refine (expectToken_alike hcalls hr rfl hr').bind ?_
      rintro stop stop' t t' ht ⟨⟨rfl, rfl⟩, hstop, hle⟩
      exact refuseSymbol_alike _ ht hstop hle
    | @some f f' h =>
      obtain ⟨v, stop⟩ := f
      obtain ⟨v', stop'⟩ := f'
      obtain ⟨rfl, hv, hstop, hle⟩ := h
      exact commitSymbol_alike hcalls _ hv hs hr' hstop hle
  | seq first second =>
    exact andThen_alike hcalls (hpart second (by simp [Rule.parts])) hs
      (hcalls.parse (hpart first (by simp [Rule.parts])) hs hp)
  | branch condition rest =>
    exact andThen_alike hcalls (hpart rest (by simp [Rule.parts])) hs
      (hcalls.parse (hpart condition (by simp [Rule.parts])) hs hp)
  | choice first second =>
    refine alike_attempt hp (hcalls.attempt hr hs hp) ?_ fun _ _ h => h
    refine (alike_position hp).bind ?_
    rintro position position' q q' hq ⟨⟨rfl, rfl⟩, rfl, rfl⟩
    exact alike_report_fail _ hq
  | opt r =>
    exact alike_attempt hp (hcalls.attempt (hpart r (by simp [Rule.parts])) hs hp)
      (alike_pure hp .nil) fun _ _ h => h
  | list item =>
    have hi := hpart item (by simp [Rule.parts])
    exact listFrom_alike hcalls hi hs (hcalls.parse hi hs hp)
  | listOpt item =>
    exact (moreItems_alike hcalls (hpart item (by simp [Rule.parts])) hs hp
      (law.held_container hs.builds hs.state)).bind fun _ _ _ _ hq hc =>
        alike_pure hq (.cons (law.val_finish hc) .nil)
  | listSep item separator =>
    have hi := hpart item (by simp [Rule.parts])
    have hsep := hpart separator (by simp [Rule.parts])
    exact (hcalls.parse hi hs hp).bind fun _ _ _ _ hq hvs =>
      (separatedItems_alike hcalls hi hsep hs hq
        (law.held_push hs.builds (law.held_container hs.builds hs.state) hvs)).bind
          fun _ _ _ _ hr hc => alike_pure hr (.cons (law.val_finish hc) .nil)
  | listTrailing item separator =>
    have hi := hpart item (by simp [Rule.parts])
    have hsep := hpart separator (by simp [Rule.parts])
    exact (hcalls.parse hi hs hp).bind fun _ _ _ _ hq hvs =>
      (trailedItems_alike hcalls hi hsep hs hq
        (law.held_push hs.builds (law.held_container hs.builds hs.state) hvs)).bind
          fun _ _ _ _ hr hc => alike_pure hr (.cons (law.val_finish hc) .nil)
  | times count item =>
    have hi := hpart item (by simp [Rule.parts])
    refine Alike.bind (alike_replicate (T := law.Held) (fun c c' q q' hq hc => ?_) count hp
      (law.held_container hs.builds hs.state)) fun _ _ _ _ hq hc =>
        alike_pure hq (.cons (law.val_finish hc) .nil)
    exact (hcalls.parse hi hs hq).bind fun _ _ _ _ hr hvs =>
      alike_pure hr (law.held_push hs.builds hc hvs)
  | production number =>
    obtain ⟨hrule, hbuilds, hw⟩ := law.admits_production (.inl hr)
    have heq := law.production number
    show law.OutputsAlike (env.parseProduction calls number scope)
      (env'.parseProduction calls' number scope) p p'
    unfold Environment.parseProduction
    rw [heq]
    exact inProduction_alike hcalls _ hs hbuilds hp
      (hcalls.parse hrule (hs.inside hbuilds hw) hp)
  | recurse number =>
    obtain ⟨hrule, hbuilds, hw⟩ := law.admits_production (.inr hr)
    have heq := law.production number
    show law.OutputsAlike (env.parseProduction calls number scope)
      (env'.parseProduction calls' number scope) p p'
    unfold Environment.parseProduction
    rw [heq]
    exact inProduction_alike hcalls _ hs hbuilds hp
      (hcalls.parse hrule (hs.inside hbuilds hw) hp)
  | recover r =>
    exact (hcalls.parse (hpart r (by simp [Rule.parts])) hs hp).orDefault (defaults_alike r)
  | scopeWhitespace =>
    exact (skipScopeWhitespace_alike hcalls hs hp).bind fun _ _ _ _ hq _ => alike_pure hq .nil
  | whitespace r =>
    exact (skipWith_alike hcalls (hpart r (by simp [Rule.parts])) hs hp).bind
      fun _ _ _ _ hq _ => alike_pure hq .nil
  | noWhitespace r =>
    exact thenSkip_alike hcalls hs
      (hcalls.parse (hpart r (by simp [Rule.parts])) hs.withoutAuto hp)
  | never => exact alike_pure hp .nil
  | fail message =>
    refine (alike_position hp).bind ?_
    rintro position position' q q' hq ⟨⟨rfl, rfl⟩, rfl, rfl⟩
    exact alike_report_fail _ hq
  | warn message =>
    refine (alike_position hp).bind ?_
    rintro position position' q q' hq ⟨⟨rfl, rfl⟩, rfl, rfl⟩
    exact (alike_report _ hq hq).bind fun _ _ _ _ hr _ => alike_pure hr .nil
  | context =>
    refine alike_pure hp (.cons (law.val_context _ _ _ hr ?_) .nil)
    split
    · exact .inr ⟨_, rfl⟩
    · exact .inl rfl
  | emit kind width =>
    refine (alike_position hp).bind ?_
    rintro position position' q q' hq ⟨⟨rfl, rfl⟩, rfl, rfl⟩
    exact (passToken_alike kind hq (law.emitted hr hq)
      (Nat.le_min.2 ⟨(law.le_stop hq).1, Nat.le_add_right _ _⟩)).bind
        fun _ _ _ _ hr _ => alike_pure hr .nil

/-! ## All attempts -/

theorem attemptAlike_of_token {r : Rule} {t : Token} {commit commit' : Nat → Commit}
    (hr : law.Admits r) (ht : r.token? = some t) (hp : law.At p p')
    (hcommit : ∀ stop stop', law.At stop stop' → p ≤ stop →
      law.OutputsAlike (commit stop scope) (commit' stop' scope) p p') :
    law.AttemptAlike (fun position => do
        match ← env.matchToken calls t position with
        | .ok stop => return some (commit stop)
        | .error _ => return none)
      (fun position => do
        match ← env'.matchToken calls' t position with
        | .ok stop => return some (commit' stop)
        | .error _ => return none) scope p p' := by
  have hmatch := matchToken_alike hcalls hr ht hp
  simp only [AttemptAlike, bind, Except.bind, pure, Except.pure]
  generalize env.matchToken calls t p = x at hmatch ⊢
  generalize env'.matchToken calls' t p' = y at hmatch ⊢
  cases hmatch with
  | exhausted => exact .exhausted
  | @ok m m' h =>
    obtain ⟨halike, hwithin⟩ := h
    cases m with
    | ok stop =>
      cases m' with
      | ok stop' => exact .ok (.some (hcommit stop stop' halike hwithin.1))
      | error f' => exact halike.elim
    | error f =>
      cases m' with
      | ok stop' => exact halike.elim
      | error f' => exact .ok .none

omit hcalls in
/-- Attempts that lead on to more than those they are made from. -/
theorem AttemptAlike.map {a a' : Attempt} {scope' : Scope} {more more' : Commit → Commit}
    (ha : law.AttemptAlike a a' scope' p p')
    (hmore : ∀ commit commit', law.OutputsAlike (commit scope') (commit' scope') p p' →
      law.OutputsAlike (more commit scope) (more' commit' scope) p p') :
    law.AttemptAlike (fun position => do return (← a position).map more)
      (fun position => do return (← a' position).map more') scope p p' := by
  simp only [AttemptAlike, bind, Except.bind, pure, Except.pure] at ha ⊢
  generalize a p = x at ha ⊢
  generalize a' p' = y at ha ⊢
  cases ha with
  | exhausted => exact .exhausted
  | ok h =>
    cases h with
    | none => exact .ok .none
    | some h => exact .ok (.some (hmore _ _ h))

theorem attemptRule_alike {r : Rule} (hr : law.Admits r) (hs : law.AdmitsScope scope)
    (hp : law.At p p') :
    law.AttemptAlike (env.attemptRule calls r) (env'.attemptRule calls' r) scope p p' := by
  have hpart := fun s (h : s ∈ r.parts) => law.admits_part hr h
  cases r with
  | token t =>
    exact attemptAlike_of_token hcalls hr rfl hp fun _ _ hstop hle =>
      commitToken_alike hcalls t hs hp hstop hle
  | capture t =>
    exact attemptAlike_of_token hcalls hr rfl hp fun _ _ hstop hle =>
      commitCapture_alike hcalls t hs hp hstop hle
  | integer type radix =>
    exact attemptAlike_of_token hcalls hr rfl hp fun _ _ hstop hle =>
      commitInteger_alike hcalls type radix hs hp hstop hle
  | position => exact .ok (.some (hcalls.parse hr hs hp))
  | symbol table =>
    have hfound := law.findSymbol_alike table hp law.at_stop (law.le_stop hp).1
    change law.FoundAlike p (env.findSymbol table (env.cursor p))
      (env'.findSymbol table (env'.cursor p')) at hfound
    simp only [AttemptAlike, Environment.attemptRule, pure, Except.pure]
    generalize env.findSymbol table (env.cursor p) = found at hfound ⊢
    generalize env'.findSymbol table (env'.cursor p') = found' at hfound ⊢
    cases hfound with
    | none => exact .ok .none
    | @some f f' h =>
      obtain ⟨v, stop⟩ := f
      obtain ⟨v', stop'⟩ := f'
      obtain ⟨rfl, hv, hstop, hle⟩ := h
      exact .ok (.some (commitSymbol_alike hcalls _ hv hs hp hstop hle))
  | symbolOf table t =>
    have hmatch := matchToken_alike hcalls hr rfl hp
    simp only [AttemptAlike, Environment.attemptRule, bind, Except.bind, pure, Except.pure]
    generalize env.matchToken calls t p = x at hmatch ⊢
    generalize env'.matchToken calls' t p' = y at hmatch ⊢
    cases hmatch with
    | exhausted => exact .exhausted
    | @ok m m' h =>
      obtain ⟨halike, hwithin⟩ := h
      cases m with
      | error f =>
        cases m' with
        | ok stop' => exact halike.elim
        | error f' => exact .ok .none
      | ok stop =>
        cases m' with
        | error f' => exact halike.elim
        | ok stop' =>
          obtain ⟨v?, v?', hv, hv', hsymbol⟩ := law.findSymbolTo_alike table hp halike hwithin.1
          simp only [hv, hv']
          cases hsymbol with
          | none => exact .ok .none
          | some h =>
            obtain ⟨rfl, hval⟩ := h
            exact .ok (.some (commitSymbol_alike hcalls _ hval hs hp halike hwithin.1))
  | symbolIdentifier table leading trailing =>
    obtain ⟨found, found', heq, heq', hfound⟩ := law.findKeyword_alike table trailing hp
    simp only [AttemptAlike, Environment.attemptRule, heq, heq', pure, Except.pure]
    cases hfound with
    | none => exact .ok .none
    | @some f f' h =>
      obtain ⟨v, stop⟩ := f
      obtain ⟨v', stop'⟩ := f'
      obtain ⟨rfl, hv, hstop, hle⟩ := h
      exact .ok (.some (commitSymbol_alike hcalls _ hv hs hp hstop hle))
  | branch condition rest =>
    exact (hcalls.attempt (hpart condition (by simp [Rule.parts])) hs hp).map
      fun _ _ hcommit => andThen_alike hcalls (hpart rest (by simp [Rule.parts])) hs hcommit
  | choice first second =>
    have hfirst := hcalls.attempt (hpart first (by simp [Rule.parts])) hs hp
    have hsecond := hcalls.attempt (hpart second (by simp [Rule.parts])) hs hp
    simp only [AttemptAlike, Environment.attemptRule, bind, Except.bind] at hfirst ⊢
    generalize calls.attempt first p = x at hfirst ⊢
    generalize calls'.attempt first p' = y at hfirst ⊢
    cases hfirst with
    | exhausted => exact .exhausted
    | ok h =>
      cases h with
      | none => exact hsecond
      | some h => exact .ok (.some h)
  | list item =>
    have hi := hpart item (by simp [Rule.parts])
    exact (hcalls.attempt hi hs hp).map fun _ _ hcommit => listFrom_alike hcalls hi hs hcommit
  | production number =>
    obtain ⟨hrule, hbuilds, hw⟩ := law.admits_production (.inl hr)
    have heq := law.production number
    simp only [AttemptAlike, Environment.attemptRule, heq]
    refine AttemptAlike.map (hcalls.attempt hrule (hs.inside hbuilds hw) hp) ?_
    intro commit commit' hcommit
    exact inProduction_alike hcalls _ hs hbuilds hp hcommit
  | recover r =>
    exact (hcalls.attempt (hpart r (by simp [Rule.parts])) hs hp).map fun _ _ hcommit =>
      hcommit.orDefault (defaults_alike r)
  | noWhitespace r =>
    exact (hcalls.attempt (hpart r (by simp [Rule.parts])) hs.withoutAuto hp).map
      fun _ _ hcommit => thenSkip_alike hcalls hs hcommit
  | seq | opt | listOpt | listSep | listTrailing | times | recurse | scopeWhitespace | whitespace
  | never | fail | warn | context | emit => exact .ok .none

end

/-! ## The interpreter -/

theorem OutputsAlike.endsAlike {law : Lockstep env env'} {m m' : Parse Outputs} {p p' : Nat}
    (h : law.OutputsAlike m m' p p') : law.EndsAlike m m' p p' := by
  refine InStep.imp (fun o o' h => ⟨h.position, ?_⟩) h
  obtain ⟨result, q, es⟩ := o
  obtain ⟨result', q', es'⟩ := o'
  obtain ⟨-, -, hresult⟩ := h
  cases hresult with
  | none => rfl
  | some _ => rfl

theorem admitsScope_silent (law : Lockstep env env') : law.AdmitsScope .silent :=
  ⟨fun _ h => (nomatch h), law.builds_discard, law.hands_none⟩

/-- All rules go in step, if with any fuel by which they do so the rules that tokens are made of
end alike. -/
theorem keptBy (law : Lockstep env env')
    (htoken : ∀ {n}, (∀ {r scope p p'}, law.Admits r → law.AdmitsScope scope → law.At p p' →
        law.OutputsAlike (env.parse n r scope) (env'.parse n r scope) p p') →
      ∀ {r p p'}, law.Inner r → law.At p p' →
        law.EndsAlike (env.parse n r .silent) (env'.parse n r .silent) p p')
    (n : Nat) : law.KeptBy (env.calls n) (env'.calls n) := by
  induction n with
  | zero =>
    have hparse : ∀ {r scope p p'}, law.Admits r → law.AdmitsScope scope → law.At p p' →
        law.OutputsAlike (env.parse 0 r scope) (env'.parse 0 r scope) p p' :=
      fun _ _ _ => .exhausted
    exact ⟨hparse, fun _ _ _ => .exhausted, htoken hparse, EventLaw.keptBy_bounds env 0, rfl⟩
  | succ n ih =>
    have hparse : ∀ {r scope p p'}, law.Admits r → law.AdmitsScope scope → law.At p p' →
        law.OutputsAlike (env.parse (n + 1) r scope) (env'.parse (n + 1) r scope) p p' :=
      fun hr hs hp => parseRule_alike ih hr hs hp
    exact ⟨hparse, fun hr hs hp => attemptRule_alike ih hr hs hp, htoken hparse,
      EventLaw.keptBy_bounds env _, rfl⟩

/-- All rules go in step by a law that admits the rules that tokens are made of. -/
theorem keptBy_of_inner (law : Lockstep env env')
    (hinner : ∀ {r}, law.Inner r → law.Admits r) (n : Nat) :
    law.KeptBy (env.calls n) (env'.calls n) :=
  law.keptBy (fun hparse _ _ _ hr hp =>
    OutputsAlike.endsAlike (hparse (hinner hr) law.admitsScope_silent hp)) n

end Phrase.Lockstep
