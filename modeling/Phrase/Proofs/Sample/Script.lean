import Phrase.Proofs.Sample.Encodings
import Phrase.Proofs.Sample.Shell

/-!
# Reading a script back

A script is written as commands, each of which is the name of a builtin and its arguments behind
blanks, with an end and whitespace between them.  Running the grammar over such a text succeeds, in
every encoding that can write it, and gives the commands that were written (`run_script`).

Whitespace belongs to what stands in front of it: the blanks behind the name of a builtin or an
argument are skipped with it, and the whitespace behind the end of a command in two steps, its blanks
in the scope of the command and the rest in that of the script.
-/

namespace Phrase.Sample.Shell

open Environment Encoding

/-! ## Names -/

theorem name_ne_nil (b : Builtin) : b.name.toList ≠ [] := by
  cases b with
  | cd | echo | exit | «export» | ls | pwd => exact List.cons_ne_nil _ _

theorem accepts_name (b : Builtin) :
    ∀ c ∈ b.name.toList, (CharClass.ascii .alnumUnderscore).accepts c = true := by
  refine List.all_eq_true.1 ?_
  cases b with
  | cd | echo | exit | «export» | ls | pwd => rfl

/-- The name of a builtin does not begin with whitespace. -/
theorem not_space_name (b : Builtin) (ds : List Char) :
    ∀ d, (b.name.toList ++ ds).head? = some d → AsciiClass.space.contains d.toNat = false := by
  intro d hd
  cases b with
  | cd | echo | exit | «export» | ls | pwd =>
    obtain rfl := Option.some.inj hd
    decide

/-! ## Written scripts -/

namespace Written

/-- An argument as it is written, behind blanks. -/
structure Argument where
  before : List Char
  kind : ArgumentKind
  text : List Char
  before_ne_nil : before ≠ []
  all_before : before.all fun c => AsciiClass.blank.contains c.toNat
  allows : kind.Allows text

/-- The characters of an argument. -/
def Argument.chars (a : Argument) : List Char := a.before ++ a.kind.written a.text

theorem Argument.isBlank_before (a : Argument) :
    ∀ c ∈ a.before, AsciiClass.blank.contains c.toNat = true := List.all_eq_true.1 a.all_before

theorem Argument.written_ne_nil (a : Argument) : a.kind.written a.text ≠ [] := by
  have hallows := a.allows
  generalize a.kind = kind at hallows ⊢
  cases kind with
  | word => exact hallows.1
  | quoted => exact List.cons_ne_nil _ _
  | «variable» => exact List.cons_ne_nil _ _

/-- A command as it is written, in front of its end. -/
structure Command where
  builtin : Builtin
  arguments : List Argument
  after : List Char
  all_after : after.all fun c => AsciiClass.blank.contains c.toNat

/-- The characters of a command. -/
def Command.chars (c : Command) : List Char :=
  c.builtin.name.toList ++ (c.arguments.flatMap Argument.chars ++ c.after)

theorem Command.isBlank_after (c : Command) :
    ∀ x ∈ c.after, AsciiClass.blank.contains x.toNat = true := List.all_eq_true.1 c.all_after

theorem Command.chars_ne_nil (c : Command) : c.chars ≠ [] :=
  List.append_ne_nil_of_left_ne_nil (name_ne_nil c.builtin) _

/-- A command with its end and whitespace behind it. -/
structure Line where
  command : Command
  ending : Ending
  gap : List Char
  all_gap : gap.all fun c => AsciiClass.space.contains c.toNat

theorem Line.isSpace_gap (l : Line) :
    ∀ c ∈ l.gap, AsciiClass.space.contains c.toNat = true := List.all_eq_true.1 l.all_gap

/-- The characters of a line. -/
def Line.chars (l : Line) : List Char := l.command.chars ++ (l.ending.written ++ l.gap)

end Written

/-- A script as it is written.  The last command needs no end. -/
structure Written where
  before : List Char
  lines : List Written.Line
  last : Option Written.Command
  all_before : before.all fun c => AsciiClass.space.contains c.toNat

namespace Written

/-- The characters of commands. -/
def charsOf (lines : List Line) (last : Option Command) : List Char :=
  lines.flatMap Line.chars ++ last.toList.flatMap Command.chars

theorem charsOf_last (c : Command) : charsOf [] (some c) = c.chars := by
  rw [charsOf, List.flatMap_nil, List.nil_append, Option.toList_some, List.flatMap_singleton]

theorem charsOf_cons (l : Line) (lines : List Line) (last : Option Command) :
    charsOf (l :: lines) last =
      l.command.chars ++ (l.ending.written ++ (l.gap ++ charsOf lines last)) := by
  rw [charsOf, List.flatMap_cons, Line.chars, List.append_assoc, List.append_assoc,
    List.append_assoc]
  rfl

variable (s : Written)

theorem isSpace_before : ∀ c ∈ s.before, AsciiClass.space.contains c.toNat = true :=
  List.all_eq_true.1 s.all_before

/-- The text of a script. -/
def text : String := String.ofList (s.before ++ charsOf s.lines s.last)

/-- The commands of a script. -/
def commands : List Command := s.lines.map Line.command ++ s.last.toList

end Written

/-! ## Values -/

/-- The value of a command. -/
def Command.value (c : Command) : Value :=
  .tuple [.sym c.builtin.name, .list (c.arguments.map Argument.value)]

theorem mapM_map_value {α : Type} {ofValue? : Value → Option α} {value : α → Value}
    (h : ∀ a, ofValue? (value a) = some a) (as : List α) :
    (as.map value).mapM ofValue? = some as := by
  induction as with
  | nil => rfl
  | cons a as ih =>
    rw [List.map_cons, List.mapM_cons, h, ih]
    rfl

theorem Command.ofValue?_value (c : Command) : ofValue? c.value = some c := by
  rw [value, ofValue?, Builtin.ofName?_name, mapM_map_value Argument.ofValue?_value]
  rfl

theorem commands?_values (cs : List Command) : commands? (.list (cs.map Command.value)) = some cs :=
  mapM_map_value Command.ofValue?_value cs

/-- A command with this builtin and with arguments of these kinds and texts, in order. -/
structure Command.Spells (c : Command) (source : Source) (w : Written.Command) : Prop where
  builtin_eq : c.builtin = w.builtin
  arguments : List.Forall₂ (fun a w => a.Spells source w.kind w.text) c.arguments w.arguments

/-! ## What follows -/

/-- Behind an argument there is a blank, or the command ends. -/
theorem head?_arguments (args : List Written.Argument) {after ds : List Char}
    (hafter : ∀ c ∈ after, AsciiClass.blank.contains c.toNat = true)
    (hds : ∀ d, ds.head? = some d → d ∈ ends) :
    ∀ d, (args.flatMap Written.Argument.chars ++ (after ++ ds)).head? = some d →
      d ∈ argumentEnds := by
  intro d hd
  cases args with
  | nil =>
    cases after with
    | nil => exact mem_argumentEnds_of_mem_ends (hds d hd)
    | cons c after =>
      obtain rfl := Option.some.inj hd
      exact mem_argumentEnds_of_blank (hafter c List.mem_cons_self)
  | cons a args =>
    obtain ⟨c, cs, hc⟩ := List.exists_cons_of_ne_nil a.before_ne_nil
    rw [List.flatMap_cons, Written.Argument.chars, hc] at hd
    obtain rfl := Option.some.inj hd
    exact mem_argumentEnds_of_blank (a.isBlank_before c (hc ▸ List.mem_cons_self))

/-- Behind a command there is what ends it. -/
theorem head?_ending (ending : Ending) (ds : List Char) :
    ∀ d, (ending.written ++ ds).head? = some d → d ∈ ends := by
  intro d hd
  cases ending with
  | semicolon | lineFeed | returnAndLineFeed =>
    obtain rfl := Option.some.inj hd
    decide

/-- No command begins with whitespace. -/
theorem not_space_charsOf (lines : List Written.Line) (last : Option Written.Command) :
    ∀ d, (Written.charsOf lines last).head? = some d →
      AsciiClass.space.contains d.toNat = false := by
  cases lines with
  | nil =>
    cases last with
    | none => exact fun d hd => nomatch hd
    | some c =>
      rw [Written.charsOf_last, Written.Command.chars]
      exact not_space_name c.builtin _
  | cons l lines =>
    rw [Written.charsOf_cons, Written.Command.chars, List.append_assoc]
    exact not_space_name l.command.builtin _

/-! ## Arguments -/

section
variable {env : Environment} {scope : Scope} {p : Nat} {ds : List Char}

/-- Written arguments are taken one behind the other, from where the blanks in front of them reach
to. -/
theorem repeats_argument (hproduction : ∀ n, env.grammar.production n = grammar.production n)
    (hscope : ¬ scope.Refuses) (hblank : scope.Skipping .blank) (args : List Written.Argument)
    {after : List Char} (hafter : ∀ c ∈ after, AsciiClass.blank.contains c.toNat = true)
    (hds : ∀ d, ds.head? = some d → d ∈ ends)
    (h : env.Shows p (args.flatMap Written.Argument.chars ++ (after ++ ds))) :
    ∃ q as, env.Reaches .blank p q ∧
      List.Forall₂ (fun a w => Argument.Spells a env.source w.kind w.text) as args ∧
      env.Repeats argument scope q ((as.map Argument.value).map ([·]))
        (p + env.width (args.flatMap Written.Argument.chars ++ after)) := by
  induction args generalizing p with
  | nil =>
    have hafter' : env.Shows p (after ++ ds) := h
    exact ⟨_, [], hafter'.reaches .blank hafter fun d hd => not_blank_of_mem_ends (hds d hd), .nil,
      .nil (declines_argument hproduction hafter'.behind hds)⟩
  | cons a args ih =>
    rw [List.flatMap_cons, Written.Argument.chars, List.append_assoc, List.append_assoc] at h
    have hwritten := h.behind
    -- what is skipped behind this argument are the blanks in front of the next one
    obtain ⟨q, as, hq, has, hrepeats⟩ := ih hwritten.behind
    obtain ⟨a', ha, htakes⟩ := takes_argument hproduction hscope hblank a.allows hwritten
      (head?_arguments args hafter hds) hq
    refine ⟨_, a' :: as, h.reaches .blank a.isBlank_before fun d hd => not_blank_written a.allows hd,
      .cons ha has, ?_⟩
    have hpos := hwritten.width_pos a.written_ne_nil
    have hle := hq.le
    have hwidth : p + env.width ((a :: args).flatMap Written.Argument.chars ++ after) =
        p + env.width a.before + env.width (a.kind.written a.text) +
          env.width (args.flatMap Written.Argument.chars ++ after) := by
      rw [List.flatMap_cons, Written.Argument.chars, List.append_assoc, List.append_assoc,
        width_append, width_append, Nat.add_assoc, Nat.add_assoc]
    rw [hwidth]
    exact .cons htakes (by omega) hrepeats

end

/-! ## Gaps -/

/-- What is no whitespace is no blank. -/
theorem not_blank_of_not_space {d : Char} (h : AsciiClass.space.contains d.toNat = false) :
    AsciiClass.blank.contains d.toNat = false := by
  have hspace := of_decide_eq_false h
  refine decide_eq_false ?_
  omega

/-- The whitespace behind the end of a command is skipped in two steps. -/
theorem exists_skips_gap {env : Environment} {scope scope' : Scope} {p : Nat}
    {gap rest : List Char} (h : env.Shows p (gap ++ rest))
    (hgap : ∀ c ∈ gap, AsciiClass.space.contains c.toNat = true)
    (hrest : ∀ d, rest.head? = some d → AsciiClass.space.contains d.toNat = false)
    (hblank : scope.Skipping .blank) (hspace : scope'.Skipping .space) :
    ∃ q, env.Skips scope p q ∧ env.Skips scope' q (p + env.width gap) := by
  let isBlank : Char → Bool := fun c => AsciiClass.blank.contains c.toNat
  rw [← List.takeWhile_append_dropWhile (p := isBlank) (l := gap), List.append_assoc] at h
  have hwidth : env.width gap =
      env.width (gap.takeWhile isBlank) + env.width (gap.dropWhile isBlank) := by
    rw [← width_append, List.takeWhile_append_dropWhile]
  have hbehind : ∀ d, (gap.dropWhile isBlank ++ rest).head? = some d → isBlank d = false := by
    intro d hd
    have hdrop := List.head?_dropWhile_not isBlank gap
    cases hgap' : gap.dropWhile isBlank with
    | nil =>
      rw [hgap'] at hd
      exact not_blank_of_not_space (hrest d hd)
    | cons c cs =>
      rw [hgap'] at hd hdrop
      obtain rfl := Option.some.inj hd
      exact hdrop
  rw [hwidth, ← Nat.add_assoc]
  exact ⟨_, h.skips .blank (fun c hc => List.mem_takeWhile_imp (p := isBlank) hc) hbehind hblank,
    h.behind.skips .space (fun c hc => hgap c ((List.dropWhile_sublist _).subset hc)) hrest hspace⟩

/-! ## Commands -/

/-- Environments of runs over scripts. -/
structure Interprets (env : Environment) : Prop where
  production : ∀ n, env.grammar.production n = grammar.production n
  sound : (env.grammar.table 0).Sound
  entries : (env.grammar.table 0).entries = builtins.entries

theorem Interprets.exists_of_mem_keys {env : Environment} (henv : Interprets env) {key : String}
    (h : key ∈ (env.grammar.table 0).keys) : ∃ b : Builtin, b.name = key := by
  have hkeys : (env.grammar.table 0).keys = Builtin.all.map Builtin.name := by
    rw [SymbolTable.keys, henv.entries]
    rfl
  rw [hkeys] at h
  obtain ⟨b, -, hb⟩ := List.mem_map.1 h
  exact ⟨b, hb⟩

theorem exists_entry (b : Builtin) : ∃ n : Nat, builtins.entries[n]? = some (b.name, .sym b.name) := by
  cases b with
  | cd => exact ⟨0, rfl⟩
  | echo => exact ⟨1, rfl⟩
  | exit => exact ⟨2, rfl⟩
  | «export» => exact ⟨3, rfl⟩
  | ls => exact ⟨4, rfl⟩
  | pwd => exact ⟨5, rfl⟩

/-- The scope inside of a script. -/
abbrev inScript (options : Options) : Scope :=
  (Scope.outer options.state options.maxDepth .discard).inside script

/-- The scope inside of a command. -/
abbrev inCommand (options : Options) : Scope := (inScript options).inside command

section
variable {env : Environment} {options : Options} {p q r : Nat} {ds : List Char}
  (henv : Interprets env)
include henv

/-- The name of a builtin is found in front of an argument or the end of a command. -/
theorem findKeyword_builtin (b : Builtin) (h : env.Shows p (b.name.toList ++ ds))
    (hds : ∀ d, ds.head? = some d → d ∈ argumentEnds) :
    env.findKeyword 0 (.ascii .alnumUnderscore) p =
      .ok (some (.sym b.name, p + env.width b.name.toList)) := by
  obtain ⟨n, hn⟩ := exists_entry b
  refine Shows.findKeyword_eq henv.sound h (henv.entries ▸ hn) (fun key hkey => ?_) fun d hd =>
    (not_accepts_of_mem_argumentEnds (hds d hd)).2
  obtain ⟨other, rfl⟩ := henv.exists_of_mem_keys hkey
  exact accepts_name other

/-- There is no command behind the last one. -/
theorem declines_command (h : env.Shows p []) : env.Declines (.production commandId) p := by
  have hnone : env.findKeyword 0 (.ascii .alnumUnderscore) p = .ok none := by
    refine Shows.findKeyword_eq_none henv.sound h fun key hkey hfront => ?_
    obtain ⟨b, rfl⟩ := henv.exists_of_mem_keys hkey
    exact name_ne_nil b (List.prefix_nil.1 hfront)
  exact .production (henv.production commandId) ((declines_symbolIdentifier hnone).branch _)

variable (hdepth : options.maxDepth = 0 ∨ 4 ≤ options.maxDepth)
include hdepth

/-- A written command is taken as it is, with what ends it. -/
theorem takes_command (w : Written.Command) (h : env.Shows p (w.chars ++ ds))
    (hds : ∀ d, ds.head? = some d → d ∈ ends)
    (hend : env.Parses terminator (inCommand options) (p + env.width w.chars) [] q)
    (hskip : env.Skips (inScript options) q r) :
    ∃ c : Command, c.Spells env.source w ∧
      env.Takes (.production commandId) (inScript options) p [c.value] r := by
  have hscript : ¬ (inScript options).Refuses := by
    show ¬ (options.maxDepth ≠ 0 ∧ options.maxDepth < 1 + 1)
    omega
  have hcommand : ¬ (inCommand options).Refuses := by
    show ¬ (options.maxDepth ≠ 0 ∧ options.maxDepth < 2 + 1)
    omega
  have harguments : ¬ ((inCommand options).inside arguments).Refuses := by
    show ¬ (options.maxDepth ≠ 0 ∧ options.maxDepth < 3 + 1)
    omega
  have hwidth : p + env.width w.chars = p + env.width w.builtin.name.toList +
      env.width (w.arguments.flatMap Written.Argument.chars ++ w.after) := by
    rw [Written.Command.chars, width_append, Nat.add_assoc]
  have hstay : env.Skips (inCommand options) (p + env.width w.chars) (p + env.width w.chars) :=
    h.behind.stays .blank (fun d hd => not_blank_of_mem_ends (hds d hd)) ⟨rfl, rfl⟩
  rw [Written.Command.chars, List.append_assoc, List.append_assoc] at h
  obtain ⟨r', as, hreaches, has, hrepeats⟩ := repeats_argument henv.production harguments
    ⟨rfl, rfl⟩ w.arguments w.isBlank_after hds h.behind
  rw [← hwidth] at hrepeats
  have hkeyword := findKeyword_builtin henv w.builtin h
    (head?_arguments w.arguments w.isBlank_after hds)
  have hbuiltin : env.Takes (.symbolIdentifier 0 (.ascii .alpha) (.ascii .alnumUnderscore))
      (inCommand options) p [.sym w.builtin.name] r' :=
    takes_symbolIdentifier hkeyword h.le_stop (hreaches.skips ⟨rfl, rfl⟩)
  have hlist : env.Parses (.production argumentsId) (inCommand options) r'
      [.list (as.map Argument.value)] (p + env.width w.chars) :=
    (hrepeats.parses_list rfl).production (henv.production argumentsId) hcommand hstay
  refine ⟨⟨w.builtin, as⟩, ⟨rfl, has⟩, ?_⟩
  exact (hbuiltin.branch (hlist.seq hend)).production (henv.production commandId) hscript hskip

/-- The last command is ended by the end of the input. -/
theorem repeats_last (w : Written.Command) (h : env.Shows p (w.chars ++ [])) :
    ∃ c : Command, c.Spells env.source w ∧
      env.Repeats (.production commandId) (inScript options) p [[c.value]]
        (p + env.width w.chars) := by
  have hend : env.Shows (p + env.width w.chars) [] := h.behind
  have hterminator : env.Parses terminator (inCommand options) (p + env.width w.chars) []
      (p + env.width w.chars) :=
    parses_terminator_eof hend (hend.stays .blank (fun _ hd => nomatch hd) ⟨rfl, rfl⟩)
  obtain ⟨c, hc, htakes⟩ := takes_command henv hdepth w h (fun _ hd => nomatch hd) hterminator
    (hend.stays .space (fun _ hd => nomatch hd) ⟨rfl, rfl⟩)
  have hpos := h.width_pos w.chars_ne_nil
  exact ⟨c, hc, .cons htakes (by omega) (.nil (declines_command henv hend))⟩

/-- Written commands are taken one behind the other. -/
theorem repeats_command (lines : List Written.Line) (last : Option Written.Command)
    (h : env.Shows p (Written.charsOf lines last)) :
    ∃ cs, List.Forall₂ (fun c w => Command.Spells c env.source w) cs
        (lines.map Written.Line.command ++ last.toList) ∧
      env.Repeats (.production commandId) (inScript options) p ((cs.map Command.value).map ([·]))
        (p + env.width (Written.charsOf lines last)) := by
  induction lines generalizing p with
  | nil =>
    cases last with
    | none => exact ⟨[], .nil, .nil (declines_command henv h)⟩
    | some w =>
      rw [Written.charsOf_last] at h ⊢
      obtain ⟨c, hc, hrepeats⟩ := repeats_last henv hdepth w (List.append_nil w.chars ▸ h)
      exact ⟨[c], .cons hc .nil, hrepeats⟩
  | cons l lines ih =>
    rw [Written.charsOf_cons] at h
    have hending := h.behind
    have hgap := hending.behind
    obtain ⟨q, hblanks, hrest⟩ := exists_skips_gap hgap l.isSpace_gap (not_space_charsOf lines last)
      (show (inCommand options).Skipping .blank from ⟨rfl, rfl⟩)
      (show (inScript options).Skipping .space from ⟨rfl, rfl⟩)
    obtain ⟨c, hc, htakes⟩ := takes_command henv hdepth l.command h (head?_ending l.ending _)
      (parses_terminator l.ending hending hblanks) hrest
    obtain ⟨cs, hcs, hrepeats⟩ := ih hgap.behind
    have hpos := h.width_pos l.command.chars_ne_nil
    have hwidth : p + env.width (Written.charsOf (l :: lines) last) =
        p + env.width l.command.chars + env.width l.ending.written + env.width l.gap +
          env.width (Written.charsOf lines last) := by
      rw [Written.charsOf_cons, width_append, width_append, width_append, Nat.add_assoc,
        Nat.add_assoc, Nat.add_assoc]
    rw [hwidth]
    exact ⟨c :: cs, .cons hc hcs, .cons htakes (by omega) hrepeats⟩

/-- A written script is read to its end. -/
theorem parses_script (s : Written)
    (h : env.Shows 0 (s.before ++ Written.charsOf s.lines s.last)) :
    ∃ cs, List.Forall₂ (fun c w => Command.Spells c env.source w) cs s.commands ∧
      ∃ q, env.Parses (.production scriptId) (.outer options.state options.maxDepth .discard) 0
        [.list (cs.map Command.value)] q := by
  have houter : ¬ (Scope.outer options.state options.maxDepth .discard).Refuses := by
    show ¬ (options.maxDepth ≠ 0 ∧ options.maxDepth < 0 + 1)
    omega
  have hbefore : env.Parses .scopeWhitespace (inScript options) 0 [] (0 + env.width s.before) :=
    h.parses_scopeWhitespace .space s.isSpace_before (not_space_charsOf s.lines s.last) rfl
  have hcommands := h.behind
  obtain ⟨cs, hcs, hrepeats⟩ := repeats_command henv hdepth s.lines s.last hcommands
  rw [← List.append_nil (Written.charsOf s.lines s.last)] at hcommands
  have hend := hcommands.behind
  have heof := parses_token hend.valid.position_le
    (hend.stays .space (fun _ hd => nomatch hd) (show (inScript options).Skipping .space from
      ⟨rfl, rfl⟩)) hend.accepts_eof
  have hbody := hbefore.seq ((hrepeats.parses_list rfl).seq heof)
  exact ⟨cs, hcs, _,
    hbody.production (henv.production scriptId) houter (skips_of_no_whitespace rfl _)⟩

end

/-! ## Runs -/

/-- A written argument as data. -/
def Written.Argument.toJson (w : Written.Argument) : Json :=
  .obj [(w.kind.name, .str (String.ofList w.text))]

/-- A written command as data. -/
def Written.Command.toJson (w : Written.Command) : Json :=
  .obj [("args", .arr (w.arguments.map Written.Argument.toJson)), ("command", .str w.builtin.name)]

theorem mapM_eq_ok {α β γ ε : Type} {R : α → β → Prop} {f : α → Except ε γ} {g : β → γ}
    (hf : ∀ a b, R a b → f a = .ok (g b)) {as : List α} {bs : List β} (h : List.Forall₂ R as bs) :
    as.mapM f = .ok (bs.map g) := by
  induction h with
  | nil => rfl
  | cons hab _ ih =>
    rw [List.mapM_cons, hf _ _ hab, ih]
    rfl

theorem Argument.Spells.toJson_eq {a : Argument} {source : Source} {w : Written.Argument}
    (h : a.Spells source w.kind w.text) : a.toJson source = .ok w.toJson := by
  rw [Argument.toJson, h.kind_eq, h.text_eq]
  rfl

theorem Command.Spells.toJson_eq {c : Command} {source : Source} {w : Written.Command}
    (h : c.Spells source w) : c.toJson source = .ok w.toJson := by
  have harguments : c.arguments.mapM (·.toJson source) =
      .ok (w.arguments.map Written.Argument.toJson) :=
    mapM_eq_ok (fun _ _ h => Argument.Spells.toJson_eq h) h.arguments
  rw [Command.toJson, h.builtin_eq, harguments]
  rfl

theorem interprets_environment (e : Encoding) (text : String)
    (hcan : e.CanEncodeAll text.toList) :
    Interprets (grammar.environment (.ofText e text)) where
  production _ := rfl
  sound := (grammar.reads_environment Sample.shell.tablesInUse hcan).sound 0
  entries := grammar.entries_table_compile 0

/-- A script that is written is read back: a run over its text succeeds and gives its commands, in
order, each argument with its kind and at the place of its text. -/
theorem run_script (s : Written) (e : Encoding)
    (he : e = .ascii → ∀ c ∈ s.text.toList, CodePoint.IsAscii c.toNat) (options : Options)
    (hdepth : options.maxDepth = 0 ∨ 4 ≤ options.maxDepth) :
    ∃ o commands, grammar.run 0 (.ofText e s.text) options = .ok o ∧
      o.report = ⟨.success, []⟩ ∧ o.value.bind commands? = some commands ∧
      List.Forall₂ (fun c w => Command.Spells c (.ofText e s.text) w) commands s.commands ∧
      Sample.shell.run .parse (.ofText e s.text) options =
        .ok ⟨⟨.success, []⟩, some (.arr (s.commands.map Written.Command.toJson)), none⟩ := by
  have hcan := canEncodeAll_of_ascii he
  have henv := interprets_environment e s.text hcan
  have hshows : (grammar.environment (.ofText e s.text)).Shows 0
      (s.before ++ Written.charsOf s.lines s.last) := by
    have hsees := Cursor.Sees.ofSource (s := .ofText e s.text) hcan (encodeText_eq s.text)
    rw [Written.text, String.toList_ofList] at hsees
    exact hsees
  obtain ⟨commands, hcommands, q, hparses⟩ := parses_script henv hdepth s hshows
  obtain ⟨o, ho⟩ : ∃ o, grammar.run 0 (.ofText e s.text) options = .ok o :=
    Sample.shell.ranked.exists_run (show Sample.shell.ranks 0 ≤ _ by decide) _ options
  obtain ⟨fuel, hfuel⟩ := Grammar.runs_of_run ho
  obtain ⟨hresult, -, herrors⟩ := hparses fuel o hfuel
  have hreport : o.report = ⟨.success, []⟩ := by
    rw [Outcome.report, hresult, herrors]
    rfl
  have hvalue : o.value = some (.list (commands.map Command.value)) := by
    rw [Outcome.value, hresult]
    rfl
  have hcommandsJson : commands.mapM (·.toJson (.ofText e s.text)) =
      .ok (s.commands.map Written.Command.toJson) :=
    mapM_eq_ok (fun _ _ h => Command.Spells.toJson_eq h) hcommands
  have hjson : Sample.shell.present (.ofText e s.text) (.list (commands.map Command.value)) =
      .ok (.arr (s.commands.map Written.Command.toJson)) := by
    show toJson ((commands? _).getD []) _ = _
    rw [commands?_values, Option.getD_some, toJson, hcommandsJson]
    rfl
  refine ⟨o, commands, ho, hreport, ?_, hcommands, ?_⟩
  · rw [hvalue]
    exact commands?_values commands
  · simp only [Sample.run, Sample.grammar, ho, hreport, hvalue, Option.mapM_some, hjson, bind,
      Except.bind]
    rfl

/-- A string with two spaces in it and a variable, in front of a semicolon; a word that is not of
ASCII, in front of a line break of two characters; and a command without an end. -/
theorem run_script_three_commands :
    let string : Written.Argument :=
      ⟨[' '], .quoted, "a  b".toList, by decide, by decide, by decide⟩
    let name : Written.Argument :=
      ⟨['\t', ' '], .variable, "x_1".toList, by decide, by decide, by decide⟩
    let word : Written.Argument := ⟨[' '], .word, "é".toList, by decide, by decide, by decide⟩
    let s : Written := ⟨['\n', ' '], [
      ⟨⟨.echo, [string, name], [' '], by decide⟩, .semicolon, ['\t', '\n', ' '], by decide⟩,
      ⟨⟨.ls, [word], [], by decide⟩, .returnAndLineFeed, [], by decide⟩],
      some ⟨.pwd, [], [], by decide⟩, by decide⟩
    let source : Source := .ofText .utf16 s.text
    s.text = "\n echo \"a  b\"\t $x_1 ;\t\n ls é\r\npwd" ∧
      (Encoding.utf16 = .ascii → ∀ c ∈ s.text.toList, CodePoint.IsAscii c.toNat) ∧
      ((⟨.none, 4⟩ : Options).maxDepth = 0 ∨ 4 ≤ (⟨.none, 4⟩ : Options).maxDepth) ∧
      ∃ o commands, grammar.run 0 source ⟨.none, 4⟩ = .ok o ∧ o.report = ⟨.success, []⟩ ∧
        o.value.bind commands? = some commands ∧
        List.Forall₂ (fun c w => Command.Spells c source w) commands s.commands ∧
        Sample.shell.run .parse source ⟨.none, 4⟩ = .ok ⟨⟨.success, []⟩, some (.arr [
          .obj [("args", .arr [.obj [("quoted", .str "a  b")], .obj [("variable", .str "x_1")]]),
            ("command", .str "echo")],
          .obj [("args", .arr [.obj [("word", .str "é")]]), ("command", .str "ls")],
          .obj [("args", .arr []), ("command", .str "pwd")]]), none⟩ := by
  intro string name word s source
  have he : Encoding.utf16 = .ascii → ∀ c ∈ s.text.toList, CodePoint.IsAscii c.toNat :=
    fun h => nomatch h
  have hdepth : (⟨.none, 4⟩ : Options).maxDepth = 0 ∨ 4 ≤ (⟨.none, 4⟩ : Options).maxDepth :=
    .inr (Nat.le_refl 4)
  exact ⟨by decide +kernel, he, hdepth, run_script s .utf16 he ⟨.none, 4⟩ hdepth⟩

end Phrase.Sample.Shell
