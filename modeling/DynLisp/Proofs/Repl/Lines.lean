import DynLisp.Proofs.Reading.WhiteSpace
import DynLisp.Proofs.Session.Batch
import DynLisp.Repl

/-!
# Programs fed line by line

However a program is broken into lines, the interactive interpreter shows the same as is shown of
its expressions when they are evaluated in order (`program_eq_batch`). After each line the
expressions read so far are either complete, and are evaluated at once, or the pending lines are
refused as incomplete; that is what keeps an evaluation from being lost or made twice.

* `read_lines_cons`: a program is read line by line;
* `addLine_of_complete`, `addLine_of_pending`: lines that the program goes on from are evaluated, or
  kept;
* `run_lines`: the induction over the lines, from any line on.
-/

namespace DynLisp

open Reader Reader.Progress

/-! ## Lines of text -/

namespace Repl

variable {ls : List String}

theorem toList_lines_cons (l : String) (ls : List String) :
    (lines (l :: ls)).toList = l.toList ++ '\n' :: (lines ls).toList := by
  unfold lines
  rw [List.map_cons, String.join_cons, String.toList_append, String.toList_append,
    List.append_assoc]
  rfl

theorem lines_append_singleton (ls : List String) (l : String) :
    lines (ls ++ [l]) = lines ls ++ l ++ "\n" := by
  unfold lines
  rw [List.map_append, String.join_append, String.append_assoc, List.map_singleton,
    String.join_cons, String.join_nil, String.append_empty]

theorem isEmpty_lines (ls : List String) : (lines ls).isEmpty = ls.isEmpty := by
  cases ls with
  | nil => rfl
  | cons l ls =>
    refine String.isEmpty_eq_false_iff.2 fun h => ?_
    have hempty := congrArg String.toList h
    rw [toList_lines_cons] at hempty
    exact List.append_ne_nil_of_right_ne_nil _ (List.cons_ne_nil _ _) hempty

theorem splitLines_append (current line cs : List Char) (h : '\n' ∉ line) :
    splitLines current (line ++ '\n' :: cs) =
      (current.reverse ++ line ++ ['\n']) :: splitLines [] cs := by
  induction line generalizing current with
  | nil =>
    rw [List.nil_append, splitLines, List.reverse_cons, List.append_nil]
  | cons c line ih =>
    have hc : c ≠ '\n' := fun hc => h (hc ▸ List.mem_cons_self)
    have hline : '\n' ∉ line := fun hline => h (List.mem_cons_of_mem c hline)
    rw [List.cons_append, splitLines, ih (c :: current) hline, List.reverse_cons,
      List.append_assoc _ [c]]
    · rfl
    · exact hc

theorem chomp_append (line : List Char) (h : '\r' ∉ line) : chomp (line ++ ['\n']) = line := by
  unfold chomp
  rw [List.reverse_append, List.reverse_singleton, List.singleton_append]
  split
  · rename_i cs hcs
    refine absurd ?_ h
    rw [← List.mem_reverse, (List.cons.inj hcs).2]
    exact List.mem_cons_self
  · rename_i cs hcs
    rw [← (List.cons.inj hcs).2, List.reverse_reverse]
  · rename_i hcs
    exact absurd rfl (hcs _)

/-- Lines without line ends in them are fed as they are. -/
theorem inputLines_lines (h : ∀ l ∈ ls, '\n' ∉ l.toList ∧ '\r' ∉ l.toList) :
    inputLines (lines ls) = ls := by
  unfold inputLines
  induction ls with
  | nil => rfl
  | cons l ls ih =>
    obtain ⟨hnewline, hreturn⟩ := h l List.mem_cons_self
    rw [toList_lines_cons, splitLines_append [] _ _ hnewline, List.map_cons,
      ih fun l hl => h l (List.mem_cons_of_mem _ hl), List.reverse_nil, List.nil_append,
      chomp_append _ hreturn, String.ofList_toList]

/-! ## Reading lines -/

variable {config : Config} {p q : Progress}

/-- A program is read line by line. -/
theorem read_lines_cons {l : String} (h : p.read config (lines (l :: ls)).toList = .ok q) :
    ∃ p', p.read config l.toList = .ok p' ∧ p'.read config (lines ls).toList = .ok q := by
  rw [toList_lines_cons, read_append_newline] at h
  cases hl : p.read config l.toList with
  | error fault =>
    rw [hl] at h
    cases h
  | ok p' =>
    rw [hl] at h
    exact ⟨p', rfl, h⟩

theorem read_lines_append_singleton {l : String} {p' : Progress}
    (h : p.read config (lines ls).toList = .ok p') (hl : p'.read config l.toList = .ok q) :
    p.read config (lines (ls ++ [l])).toList = .ok q := by
  induction ls generalizing p with
  | nil =>
    cases h
    rw [List.nil_append, toList_lines_cons, read_append_newline_of_ok hl]
    rfl
  | cons l' ls ih =>
    obtain ⟨p₁, hp₁, hrest⟩ := read_lines_cons h
    rw [List.cons_append, toList_lines_cons, read_append_newline_of_ok hp₁]
    exact ih hrest

/-! ## Lines of white space -/

theorem whiteSpace_of_trim {cs : List Char} (h : (trim cs).isEmpty) :
    ∀ c ∈ cs, isWhiteSpace c := by
  have hrest : ∀ c ∈ cs.dropWhile isWhiteSpace, isWhiteSpace c := by
    simpa only [trim, List.isEmpty_reverse, List.isEmpty_iff, List.dropWhile_eq_nil_iff,
      List.mem_reverse] using h
  have hfirst : ∀ c ∈ cs.takeWhile isWhiteSpace, isWhiteSpace c :=
    List.all_eq_true.1 List.all_takeWhile
  intro c hc
  rw [← @List.takeWhile_append_dropWhile _ isWhiteSpace cs] at hc
  exact (List.mem_append.1 hc).elim (hfirst c) (hrest c)

/-- White space is read if it is blank, and then it means nothing. -/
theorem read_of_whiteSpace {cs : List Char} (hcs : ∀ c ∈ cs, isWhiteSpace c)
    (h : p.read config cs = .ok q) : q = p := by
  induction cs with
  | nil =>
    cases h
    rfl
  | cons c cs ih =>
    obtain ⟨hc, hrest⟩ := List.forall_mem_cons.1 hcs
    unfold Progress.read at h
    cases hblank : isBlank c with
    | true =>
      rw [lexemes_of_blank (.char (isBlank_iff.1 hblank) (.done cs))] at h
      exact ih hrest h
    | false =>
      have hstray : isStraySpace c = true := by
        rw [isStraySpace, hc, hblank]
        rfl
      rw [lexemes_of_spelled (spelled_of_isStraySpace hstray cs)] at h
      obtain ⟨p', hstep, -⟩ := exists_of_foldlM_cons_eq_ok h
      cases advances_of_step hstep

/-! ## Answers to lines -/

variable {r : Repl} {l : String} {shown : List (String × Value)} {t : Session}

/-- What is shown of expressions that are evaluated: before each value what its evaluation
printed. -/
def resultText (shown : List (String × Value)) : String :=
  String.join (shown.map fun (printed, v) => printed ++ v.display ++ "\n")

theorem resultText_cons (printed : String) (v : Value) (shown : List (String × Value)) :
    resultText ((printed, v) :: shown) = printed ++ lines [v.display] ++ resultText shown := by
  have hline : lines [v.display] = v.display ++ "\n" := by
    rw [lines, List.map_singleton, String.join_cons, String.join_nil, String.append_empty]
  rw [resultText, List.map_cons, String.join_cons, hline, ← String.append_assoc]
  rfl

theorem resultText_append (shown shown' : List (String × Value)) :
    resultText (shown ++ shown') = resultText shown ++ resultText shown' := by
  rw [resultText, List.map_append, String.join_append]
  rfl

theorem evalForms_of_evaluatesInOrder {es : List Value} {s : Session}
    (h : s.EvaluatesInOrder es shown t) : evalForms es s = some (resultText shown, t) := by
  induction h with
  | nil => rfl
  | cons hv _ ih =>
    rw [evalForms, hv]
    dsimp only [Option.bind_eq_bind, Option.bind_some]
    rw [ih, resultText_cons]
    rfl

theorem feed_eq_addLine (hcommand : Command.ofLine? l = none)
    (hblank : r.pending.isEmpty → ¬ (trim l.toList).isEmpty) : r.feed l = r.addLine l := by
  unfold feed
  split
  · rename_i hempty
    rw [if_neg (hblank hempty), hcommand]
  · rfl

theorem addLine_of_complete
    (hread : ({} : Progress).read {} (r.pending ++ l ++ "\n").toList = .ok p)
    (hpending : p.pending = []) (heval : r.session.EvaluatesInOrder p.done.reverse shown t) :
    r.addLine l = some ⟨resultText shown, some { session := t, pending := "" }⟩ := by
  have hparse : Reader.parseAll (r.pending ++ l ++ "\n") = .ok p.done.reverse :=
    Config.parseAll_of_complete hread hpending
  unfold addLine
  dsimp only
  rw [hparse]
  dsimp only
  rw [evalForms_of_evaluatesInOrder heval]
  rfl

theorem addLine_of_pending (hread : ({} : Progress).read {} (r.pending ++ l ++ "\n").toList = .ok p)
    (hpending : p.pending ≠ []) (hdepth : p.depth < ({} : Config).maxDepth) :
    r.addLine l = some ⟨"", some { r with pending := r.pending ++ l ++ "\n" }⟩ := by
  obtain ⟨e, he, hkind⟩ := Config.parseAll_of_pending hread hpending
  have hparse : Reader.parseAll (r.pending ++ l ++ "\n") = .error e := he
  rw [if_neg (Nat.not_le_of_lt hdepth)] at hkind
  unfold addLine
  dsimp only
  rw [hparse]
  exact if_pos hkind

/-! ## Programs -/

/-- What was read of the lines that are pending: a form is open at their end, if there are any. -/
structure HasRead (config : Config) (r : Repl) (p : Progress) : Prop where
  exists_lines : ∃ ls, r.pending = lines ls ∧ ({} : Progress).read config (lines ls).toList = .ok p
  isOpen : ¬ r.pending.isEmpty → p.pending ≠ []

theorem HasRead.start (config : Config) (s : Session) : HasRead config ⟨s, ""⟩ {} where
  exists_lines := ⟨[], rfl, rfl⟩
  isOpen h := absurd rfl h

theorem HasRead.eq_start (h : HasRead config r p) (hempty : r.pending.isEmpty) : p = {} := by
  obtain ⟨ls, hpending, hread⟩ := h.exists_lines
  rw [hpending, isEmpty_lines, List.isEmpty_iff] at hempty
  rw [hempty] at hread
  cases hread
  rfl

/-- Reading the pending lines and one more goes on where it stopped. -/
theorem HasRead.read_line (h : HasRead config r p) {p' : Progress}
    (hl : p.read config l.toList = .ok p') :
    ∃ ls, r.pending ++ l ++ "\n" = lines ls ∧
      ({} : Progress).read config (lines ls).toList = .ok p' := by
  obtain ⟨ls, hpending, hread⟩ := h.exists_lines
  refine ⟨ls ++ [l], ?_, read_lines_append_singleton hread hl⟩
  rw [hpending, lines_append_singleton]

theorem run_cons {r' : Repl} {output : String} (h : r.feed l = some ⟨output, some r'⟩) :
    r.run (l :: ls) = (r'.run ls).after output := by
  rw [run, h]

/-- From any line on: if the lines that are left complete what is pending, and all expressions that
are read then have values, these are shown. -/
theorem run_lines (hcomments : config.comments = true) (hlimit : config.maxDepth < 512)
    (hcommands : ∀ l ∈ ls, Command.ofLine? l = none) (h : HasRead config r p)
    (hread : p.read config (lines ls).toList = .ok q) (hq : q.pending = [])
    (heval : r.session.EvaluatesInOrder q.done.reverse shown t) :
    r.run ls = ⟨resultText shown ++ farewell, finished⟩ := by
  induction ls generalizing r p q shown with
  | nil =>
    cases hread
    have hnone : r.pending.isEmpty := by
      by_contra hsome
      exact h.isOpen hsome hq
    rw [h.eq_start hnone] at heval
    cases heval
    rfl
  | cons l ls ih =>
    obtain ⟨p', hl, hrest⟩ := read_lines_cons hread
    have hcommands' : ∀ l ∈ ls, Command.ofLine? l = none :=
      fun l hl => hcommands l (List.mem_cons_of_mem _ hl)
    by_cases hblank : r.pending.isEmpty ∧ (trim l.toList).isEmpty
    · -- Between expressions, a line of white space is passed over.
      have hfeed : r.feed l = some ⟨"", some r⟩ := by
        unfold feed
        rw [if_pos hblank.1, if_pos hblank.2]
      rw [read_of_whiteSpace (whiteSpace_of_trim hblank.2) hl] at hrest
      rw [run_cons hfeed, ih hcommands' h hrest hq heval, Ending.after, String.empty_append]
    · have hfeed : r.feed l = r.addLine l :=
        feed_eq_addLine (hcommands l List.mem_cons_self) fun hempty htrim => hblank ⟨hempty, htrim⟩
      obtain ⟨ks, hks, hreadKs⟩ := h.read_line hl
      have hreadText : ({} : Progress).read {} (r.pending ++ l ++ "\n").toList = .ok p' := by
        rw [hks]
        exact read_mono hcomments (Nat.le_of_lt hlimit) hreadKs
      by_cases hp' : p'.pending = []
      · -- The expressions that the line completes are evaluated; reading starts anew after them.
        obtain ⟨q', hrest', rfl⟩ := read_of_complete hp' hrest
        rw [after, List.reverse_append] at heval
        obtain ⟨first, second, s', rfl, hfirst, hsecond⟩ := heval.of_append
        rw [run_cons (hfeed.trans (addLine_of_complete hreadText hp' hfirst)),
          ih hcommands' (.start config s') hrest' hq hsecond, Ending.after, resultText_append,
          String.append_assoc]
      · -- The lower limit leaves room for another datum, so the text is incomplete.
        have hdepth : p'.depth ≤ config.maxDepth := ((wellNested_start _).read hreadKs).depth_le
        have hanswer := addLine_of_pending hreadText hp' (Nat.lt_of_le_of_lt hdepth hlimit)
        have hnext : HasRead config { r with pending := r.pending ++ l ++ "\n" } p' :=
          ⟨⟨ks, hks, hreadKs⟩, fun _ => hp'⟩
        rw [run_cons (hfeed.trans hanswer), ih hcommands' hnext hrest hq heval, Ending.after,
          String.empty_append]

/-- However a program is broken into lines, it is answered as its expressions are evaluated in one
batch: after the greeting comes for every expression what its evaluation prints, and its value. The
program may be nested one level less deep than can be read. The limits of evaluation may be any
under which the batch finishes. -/
theorem program_eq_batch (limits : Limits) (ls : List String) (es vs : List Value) (t : Session)
    (hlines : ∀ l ∈ ls, '\n' ∉ l.toList ∧ '\r' ∉ l.toList)
    (hcommands : ∀ l ∈ ls, Command.ofLine? l = none)
    (hread : ({ maxDepth := 511 } : Config).parseAll (lines ls) = .ok es)
    (hbatch : Session.evalAllText (lines ls) { limits } = some (.ok vs, t)) :
    ∃ shown, Session.EvaluatesInOrder { limits } es shown t ∧ shown.map Prod.snd = vs ∧
      program (inputLines (lines ls)) limits =
        ⟨banner ++ String.join (shown.map fun (printed, v) => printed ++ v.display ++ "\n") ++
          farewell, 0⟩ := by
  obtain ⟨q, hq, hpending, hdone⟩ := Config.exists_read_of_parseAll hread
  have hreadText : ({} : Progress).read {} (lines ls).toList = .ok q := by
    refine read_mono ?_ ?_ hq
    · rfl
    · decide
  have hreadAll : Reader.parseAll (lines ls) = .ok q.done.reverse :=
    Config.parseAll_of_complete hreadText hpending
  obtain ⟨shown, hshown, hvalues⟩ := Session.evaluatesInOrder_of_evalAllText hreadAll hbatch
  have hrun := run_lines rfl (by decide) hcommands (.start { maxDepth := 511 } { limits }) hq
    hpending hshown
  refine ⟨shown, hdone ▸ hshown, hvalues, ?_⟩
  rw [inputLines_lines hlines, program, hrun, Ending.after, ← String.append_assoc]
  rfl

/-- A definition that takes four lines, one of them empty, and two expressions in one line. -/
theorem definition_over_lines_is_answered :
    ∃ shown t, Session.EvaluatesInOrder {}
      [.ofList [.symbol "define", .symbol "a", quoted (.pair (.int 1) (.int 2))],
        .ofList [.symbol "print", .symbol "a"], .symbol "a"] shown t ∧
      shown.map Prod.snd = [.nil, .nil, .pair (.int 1) (.int 2)] ∧
      program (inputLines (lines ["(define a;", "", "'(1 .", "2))", "(print a) a"])) =
        ⟨banner ++ String.join (shown.map fun (printed, v) => printed ++ v.display ++ "\n") ++
          farewell, 0⟩ := by
  have hbatch : (Session.evalAllText
      (lines ["(define a;", "", "'(1 .", "2))", "(print a) a"]) {}).map Prod.fst =
        some (.ok [.nil, .nil, .pair (.int 1) (.int 2)]) := by
    decide +kernel
  obtain ⟨⟨r, t⟩, ht, hr⟩ := Option.map_eq_some_iff.1 hbatch
  obtain rfl : r = .ok [.nil, .nil, .pair (.int 1) (.int 2)] := hr
  obtain ⟨shown, h⟩ := program_eq_batch {} _
    [.ofList [.symbol "define", .symbol "a", quoted (.pair (.int 1) (.int 2))],
      .ofList [.symbol "print", .symbol "a"], .symbol "a"]
    _ t (by decide +kernel) (by decide +kernel) (by decide +kernel) ht
  exact ⟨shown, t, h⟩

example : program ["(define a;", "", "'(1 .", "2))", "(print a) a"] =
    ⟨banner ++ lines ["()", "(1 . 2)", "()", "(1 . 2)"] ++ farewell, 0⟩ := by
  decide +kernel

end Repl

end DynLisp
