import Phrase.Proofs.Parse.Shows
import Phrase.Sample.Shell

/-!
# What arguments and the ends of commands are read as

For every kind of argument there is what its text can be, and how that is written.  A written
argument that is ended by what follows is taken as it is (`takes_argument`), and in front of the end
of a command there is none (`declines_argument`).  Three kinds of whitespace meet here: a string and
a variable are tokens and have none inside, a word has that of the command, and what is skipped
behind an argument is told from outside, as the place that blanks reach to.
-/

namespace Phrase.Sample.Shell

open Environment Parse

/-! ## Texts -/

namespace ArgumentKind

/-- What the text of an argument can be. -/
def Allows : ArgumentKind → List Char → Prop
  | .word, cs => cs ≠ [] ∧ ∀ c ∈ cs, ¬ Text.IsWhiteSpace c ∧ ¬ Text.IsControl c ∧
      c ≠ '"' ∧ c ≠ '$' ∧ c ≠ ';'
  | .quoted, cs => ∀ c ∈ cs, c ≠ '"' ∧ c ≠ '\n'
  | .variable, [] => False
  | .variable, c :: cs => (c.isAlpha ∨ c = '_') ∧ ∀ d ∈ cs, d.isAlphanum ∨ d = '_'

instance (kind : ArgumentKind) (cs : List Char) : Decidable (kind.Allows cs) :=
  match kind, cs with
  | .word, cs => @instDecidableAnd _ _ inferInstance (List.decidableBAll _ cs)
  | .quoted, cs => List.decidableBAll _ cs
  | .variable, [] => .isFalse id
  | .variable, _ :: cs => @instDecidableAnd _ _ inferInstance (List.decidableBAll _ cs)

/-- How an argument with a text is written. -/
def written : ArgumentKind → List Char → List Char
  | .word, cs => cs
  | .quoted, cs => '"' :: (cs ++ ['"'])
  | .variable, cs => '$' :: cs

end ArgumentKind

/-- What can stand behind a command. -/
def ends : List Char := [';', '\n', '\r']

/-- What can stand behind an argument. -/
def argumentEnds : List Char := ' ' :: '\t' :: ends

/-! ## Characters -/

section
variable {c : Char}

theorem isWordPart_toNat : isWordPart c.toNat = true ↔
    ¬ Text.IsWhiteSpace c ∧ ¬ Text.IsControl c ∧ c ≠ '"' ∧ c ≠ '$' ∧ c ≠ ';' := by
  rw [isWordPart, CodePoint.toChar?_toNat]
  simp [and_assoc]

theorem isStringPart_toNat : isStringPart c.toNat = true ↔ c ≠ '"' ∧ c ≠ '\n' := by
  rw [isStringPart, CodePoint.toChar?_toNat]
  simp

theorem contains_alphaUnderscore :
    AsciiClass.alphaUnderscore.contains c.toNat = true ↔ c.isAlpha ∨ c = '_' := by
  rw [AsciiClass.contains, decide_eq_true_eq, AsciiClass.isAlpha_iff, ← Char.toNat_inj]
  exact Iff.rfl

theorem contains_alnumUnderscore :
    AsciiClass.alnumUnderscore.contains c.toNat = true ↔ c.isAlphanum ∨ c = '_' := by
  rw [AsciiClass.contains, decide_eq_true_eq, AsciiClass.isAlphanum_iff, ← Char.toNat_inj]
  exact or_assoc.symm

/-- What ends an argument is no part of a word or of a name. -/
theorem not_accepts_of_mem_argumentEnds (h : c ∈ argumentEnds) :
    (CharClass.codePoint wordPart).accepts c = false ∧
      (CharClass.ascii .alnumUnderscore).accepts c = false := by
  have hends : (argumentEnds.all fun c => !(CharClass.codePoint wordPart).accepts c &&
    !(CharClass.ascii .alnumUnderscore).accepts c) = true := by decide +kernel
  have hc := List.all_eq_true.1 hends c h
  rw [Bool.and_eq_true, Bool.not_eq_true', Bool.not_eq_true'] at hc
  exact hc

theorem not_blank_of_mem_ends (h : c ∈ ends) : AsciiClass.blank.contains c.toNat = false := by
  have hends : (ends.all fun c => !AsciiClass.blank.contains c.toNat) = true := by decide
  have hc := List.all_eq_true.1 hends c h
  rw [Bool.not_eq_true'] at hc
  exact hc

theorem mem_argumentEnds_of_mem_ends (h : c ∈ ends) : c ∈ argumentEnds :=
  List.mem_cons_of_mem _ (List.mem_cons_of_mem _ h)

theorem mem_argumentEnds_of_blank (h : AsciiClass.blank.contains c.toNat = true) :
    c ∈ argumentEnds := by
  rcases of_decide_eq_true h with hc | hc
  · obtain rfl : c = ' ' := Char.toNat_inj.1 hc
    decide
  · obtain rfl : c = '\t' := Char.toNat_inj.1 hc
    decide

/-- A written argument does not begin with a blank. -/
theorem not_blank_written {kind : ArgumentKind} {cs ds : List Char} (hcs : kind.Allows cs)
    (hc : (kind.written cs ++ ds).head? = some c) : AsciiClass.blank.contains c.toNat = false := by
  cases kind with
  | quoted =>
    obtain rfl := Option.some.inj hc
    decide
  | «variable» =>
    obtain rfl := Option.some.inj hc
    decide
  | word =>
    obtain ⟨d, cs, rfl⟩ := List.exists_cons_of_ne_nil hcs.1
    obtain rfl := Option.some.inj hc
    refine Bool.eq_false_iff.2 fun hblank => ?_
    have hword := isWordPart_toNat.2 (hcs.2 d List.mem_cons_self)
    have hends := (not_accepts_of_mem_argumentEnds (mem_argumentEnds_of_blank hblank)).1
    exact Bool.eq_false_iff.1 hends hword

end

/-! ## Arguments -/

/-- The value of an argument. -/
def Argument.value (a : Argument) : Value := .tuple [.sym a.kind.name, .lexeme a.range]

theorem Argument.ofValue?_value (a : Argument) : ofValue? a.value = some a := by
  rw [value, ofValue?, ArgumentKind.ofName?_name]
  rfl

/-- An argument of this kind whose text is this one. -/
structure Argument.Spells (a : Argument) (source : Source) (kind : ArgumentKind)
    (cs : List Char) : Prop where
  kind_eq : a.kind = kind
  text_eq : source.sliceText a.range = .ok (String.ofList cs)

/-- The rule of a single argument. -/
abbrev argument : Rule :=
  .choice (.production quotedId) (.choice (.production variableId) (.production wordId))

section
variable {env : Environment} {scope : Scope} {p q : Nat} {cs ds : List Char}

/-- A string is read up to the quote behind it. -/
theorem repeats_stringPart (hcs : ArgumentKind.quoted.Allows cs)
    (h : env.Shows p (cs ++ '"' :: ds)) :
    env.Repeats (.token (.codePoint stringPart)) .silent p (cs.map fun _ => [])
      (p + env.width cs) := by
  induction cs generalizing p with
  | nil => exact .nil (declines_token (h.rejects_codePoint (by decide)))
  | cons c cs ih =>
    obtain ⟨hc, hcs⟩ := List.forall_mem_cons.1 hcs
    have hbehind := h.behind_cons
    have htakes : env.Takes (.token (.codePoint stringPart)) .silent p [] (p + env.width [c]) :=
      takes_token hbehind.valid.position_le (skips_of_no_whitespace rfl _)
        (h.accepts_codePoint (isStringPart_toNat.2 hc))
    have hwidth : 0 < env.width [c] :=
      Shows.width_pos (show env.Shows p ([c] ++ (cs ++ '"' :: ds)) from h) (List.cons_ne_nil _ _)
    rw [List.map_cons, width_cons, ← Nat.add_assoc]
    exact .cons htakes (by omega) (ih hcs hbehind)

variable (hproduction : ∀ n, env.grammar.production n = grammar.production n)
include hproduction

/-- Strings and variables are told by the character that they begin with. -/
theorem declines_quoted (h : env.Shows p cs) (hcs : cs.head? ≠ some '"') :
    env.Declines (.production quotedId) p :=
  .production (hproduction quotedId)
    (.branch (declines_token (h.rejects_literal (x := '"') (by decide) hcs)) _)

theorem declines_variable (h : env.Shows p cs) (hcs : cs.head? ≠ some '$') :
    env.Declines (.production variableId) p :=
  .production (hproduction variableId)
    (.branch (declines_token (h.rejects_literal (x := '$') (by decide) hcs)) _)

theorem declines_word (h : env.Shows p cs)
    (hcs : ∀ c, cs.head? = some c → isWordPart c.toNat = false) :
    env.Declines (.production wordId) p :=
  .production (hproduction wordId) (declines_capture (h.rejects_identifier hcs))

/-- Where a command ends there is no argument. -/
theorem declines_argument (h : env.Shows p ds) (hds : ∀ d, ds.head? = some d → d ∈ ends) :
    env.Declines argument p := by
  have hquote : ds.head? ≠ some '"' := fun h => absurd (hds _ h) (by decide)
  have hdollar : ds.head? ≠ some '$' := fun h => absurd (hds _ h) (by decide)
  have hword : ∀ d, ds.head? = some d → isWordPart d.toNat = false := fun d hd =>
    (not_accepts_of_mem_argumentEnds (mem_argumentEnds_of_mem_ends (hds d hd))).1
  exact (declines_quoted hproduction h hquote).choice
    ((declines_variable hproduction h hdollar).choice (declines_word hproduction h hword))

variable (hscope : ¬ scope.Refuses)
include hscope

theorem takes_quoted (hcs : ArgumentKind.quoted.Allows cs)
    (h : env.Shows p (ArgumentKind.quoted.written cs ++ ds))
    (hskip : env.Skips scope (p + env.width (ArgumentKind.quoted.written cs)) q) :
    ∃ a : Argument, a.Spells env.source .quoted cs ∧
      env.Takes (.production quotedId) scope p [a.value] q := by
  let start := p + env.width ['"']
  let stop := start + env.width cs
  have hstring : env.Shows start (cs ++ '"' :: ds) := by
    rw [ArgumentKind.written, List.cons_append, List.append_assoc] at h
    exact h.behind_cons
  have hclosing : env.Shows stop ('"' :: ds) := hstring.behind
  have hopen : env.Takes (.token (.literal "\"")) (scope.inside quoted) p [] start :=
    takes_token hstring.valid.position_le (skips_of_not_auto rfl _)
      (h.accepts_literal (x := '"') (by decide))
  have hcapture : env.Parses
      (.capture (.rule (.listOpt (.token (.codePoint stringPart))) (.custom "string")))
      (scope.inside quoted) start [.lexeme ⟨start, stop⟩] stop :=
    parses_capture hclosing.valid.position_le (skips_of_not_auto rfl _)
      (accepts_rule (repeats_stringPart hcs hstring).parses_listOpt)
  have hclose : env.Parses (.token (.literal "\"")) (scope.inside quoted) stop []
      (stop + env.width ['"']) :=
    parses_token hclosing.behind_cons.valid.position_le (skips_of_not_auto rfl _)
      (hclosing.accepts_literal (x := '"') (by decide))
  have hwidth : p + env.width (ArgumentKind.quoted.written cs) = stop + env.width ['"'] := by
    rw [ArgumentKind.written, width_cons, width_append, ← Nat.add_assoc, ← Nat.add_assoc]
  rw [hwidth] at hskip
  refine ⟨⟨.quoted, ⟨start, stop⟩⟩, ⟨rfl, hstring.sliceText⟩, ?_⟩
  exact (hopen.branch (hcapture.seq hclose)).production (hproduction quotedId) hscope hskip

theorem takes_variable (hcs : ArgumentKind.variable.Allows cs)
    (h : env.Shows p (ArgumentKind.variable.written cs ++ ds))
    (hds : ∀ d, ds.head? = some d → d ∈ argumentEnds)
    (hskip : env.Skips scope (p + env.width (ArgumentKind.variable.written cs)) q) :
    ∃ a : Argument, a.Spells env.source .variable cs ∧
      env.Takes (.production variableId) scope p [a.value] q := by
  let start := p + env.width ['$']
  let stop := start + env.width cs
  have hname : env.Shows start (cs ++ ds) := h.behind_cons
  have hdollar : env.Takes (.token (.literal "$")) (scope.inside variableName) p [] start :=
    takes_token hname.valid.position_le (skips_of_not_auto rfl _)
      (h.accepts_literal (x := '$') (by decide))
  have haccepts : env.Accepts (.identifier (.ascii .alphaUnderscore) (.ascii .alnumUnderscore))
      start stop := by
    cases cs with
    | nil => exact hcs.elim
    | cons c cs =>
      obtain ⟨hc, hcs⟩ := hcs
      exact hname.accepts_identifier (contains_alphaUnderscore.2 hc)
        (fun d hd => contains_alnumUnderscore.2 (hcs d hd))
        fun d hd => (not_accepts_of_mem_argumentEnds (hds d hd)).2
  have hcapture : env.Parses
      (.capture (.identifier (.ascii .alphaUnderscore) (.ascii .alnumUnderscore)))
      (scope.inside variableName) start [.lexeme ⟨start, stop⟩] stop :=
    parses_capture hname.le_stop (skips_of_not_auto rfl _) haccepts
  have hwidth : p + env.width (ArgumentKind.variable.written cs) = stop := by
    rw [ArgumentKind.written, width_cons, ← Nat.add_assoc]
  rw [hwidth] at hskip
  refine ⟨⟨.variable, ⟨start, stop⟩⟩, ⟨rfl, hname.sliceText⟩, ?_⟩
  exact (hdollar.branch hcapture).production (hproduction variableId) hscope hskip

/-- A word has the whitespace of its surroundings skipped behind it. -/
theorem takes_word (hcs : ArgumentKind.word.Allows cs)
    (h : env.Shows p (ArgumentKind.word.written cs ++ ds))
    (hds : ∀ d, ds.head? = some d → d ∈ argumentEnds)
    (hskip : env.Skips (scope.inside word) (p + env.width (ArgumentKind.word.written cs)) q)
    (hstay : env.Skips scope q q) :
    ∃ a : Argument, a.Spells env.source .word cs ∧
      env.Takes (.production wordId) scope p [a.value] q := by
  obtain ⟨hne, hcs⟩ := hcs
  have haccepts : env.Accepts (.identifier (.codePoint wordPart) (.codePoint wordPart)) p
      (p + env.width cs) := by
    cases cs with
    | nil => exact absurd rfl hne
    | cons c cs =>
      obtain ⟨hc, hcs⟩ := List.forall_mem_cons.1 hcs
      exact h.accepts_identifier (isWordPart_toNat.2 hc) (fun d hd => isWordPart_toNat.2 (hcs d hd))
        fun d hd => (not_accepts_of_mem_argumentEnds (hds d hd)).1
  refine ⟨⟨.word, ⟨p, p + env.width cs⟩⟩, ⟨rfl, Shows.sliceText h⟩, ?_⟩
  exact (takes_capture (Shows.le_stop h) hskip haccepts).production (hproduction wordId) hscope hstay

/-- A written argument is taken as it is. -/
theorem takes_argument (hblank : scope.Skipping .blank) {kind : ArgumentKind}
    (hcs : kind.Allows cs) (h : env.Shows p (kind.written cs ++ ds))
    (hds : ∀ d, ds.head? = some d → d ∈ argumentEnds)
    (hq : env.Reaches .blank (p + env.width (kind.written cs)) q) :
    ∃ a : Argument, a.Spells env.source kind cs ∧ env.Takes argument scope p [a.value] q := by
  cases kind with
  | quoted =>
    obtain ⟨a, ha, htakes⟩ := takes_quoted hproduction hscope hcs h (hq.skips hblank)
    exact ⟨a, ha, htakes.choice _⟩
  | «variable» =>
    obtain ⟨a, ha, htakes⟩ := takes_variable hproduction hscope hcs h hds (hq.skips hblank)
    refine ⟨a, ha, (htakes.choice _).choice_right (declines_quoted hproduction h ?_)⟩
    exact fun hhead => absurd (Option.some.inj hhead) (by decide)
  | word =>
    have hinside : (scope.inside word).Skipping .blank := ⟨hblank.whitespace, hblank.auto⟩
    obtain ⟨a, ha, htakes⟩ :=
      takes_word hproduction hscope hcs h hds (hq.skips hinside) (hq.stays hblank)
    obtain ⟨c, cs, rfl⟩ := List.exists_cons_of_ne_nil hcs.1
    obtain ⟨-, -, hquote, hdollar, -⟩ := hcs.2 c List.mem_cons_self
    refine ⟨a, ha, (htakes.choice_right (declines_variable hproduction h ?_)).choice_right
      (declines_quoted hproduction h ?_)⟩
    · exact fun hhead => hdollar (Option.some.inj hhead)
    · exact fun hhead => hquote (Option.some.inj hhead)

end

/-! ## Ends of commands -/

/-- What ends a command in front of another one. -/
inductive Ending where
  | semicolon
  | lineFeed
  | returnAndLineFeed
  deriving DecidableEq, Repr

/-- How the end of a command is written. -/
def Ending.written : Ending → List Char
  | .semicolon => [';']
  | .lineFeed => ['\n']
  | .returnAndLineFeed => ['\r', '\n']

section
variable {env : Environment} {scope : Scope} {p q : Nat} {ds : List Char}

theorem parses_terminator (ending : Ending) (h : env.Shows p (ending.written ++ ds))
    (hskip : env.Skips scope (p + env.width ending.written) q) :
    env.Parses terminator scope p [] q := by
  have hsemicolon : ∀ {ds}, env.Shows p ds → ds.head? ≠ some ';' →
      env.Declines (.token (.literal ";")) p := fun h hds =>
    declines_token (h.rejects_literal (x := ';') (by decide) hds)
  have hnewline : ∀ br, br = ['\n'] ∨ br = ['\r', '\n'] → env.Shows p (br ++ ds) →
      env.Skips scope (p + env.width br) q → env.Takes (.token .newline) scope p [] q :=
    fun br hbr h hskip => takes_token h.le_stop hskip (h.accepts_newline hbr)
  refine Takes.parses_choice ?_
  cases ending with
  | semicolon =>
    exact (takes_token h.le_stop hskip (h.accepts_literal (x := ';') (by decide))).choice _
  | lineFeed =>
    exact ((hnewline _ (.inl rfl) h hskip).choice _).choice_right
      (hsemicolon h fun hhead => absurd (Option.some.inj hhead) (by decide))
  | returnAndLineFeed =>
    exact ((hnewline _ (.inr rfl) h hskip).choice _).choice_right
      (hsemicolon h fun hhead => absurd (Option.some.inj hhead) (by decide))

/-- The end of the input ends a command as well. -/
theorem parses_terminator_eof (h : env.Shows p []) (hskip : env.Skips scope p q) :
    env.Parses terminator scope p [] q := by
  have hnone : ∀ c : Char, ([] : List Char).head? ≠ some c := fun _ hhead => nomatch hhead
  have hsemicolon : env.Declines (.token (.literal ";")) p :=
    declines_token (h.rejects_literal (x := ';') (by decide) (hnone _))
  have hnewline : env.Declines (.token .newline) p :=
    declines_token (h.rejects_newline (hnone _) (hnone _))
  have heof : env.Takes (.token .eof) scope p [] q :=
    takes_token h.valid.position_le hskip h.accepts_eof
  exact ((heof.choice_right hnewline).choice_right hsemicolon).parses_choice

end

end Phrase.Sample.Shell
