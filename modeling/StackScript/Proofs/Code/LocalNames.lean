import StackScript.Proofs.Code.Nameless
import StackScript.Proofs.Code.Precedence
import StackScript.Proofs.Compiler.Unlined
import StackScript.Proofs.Syntax.Renaming

/-! Names of local variables do not matter. A program in which one of them has been replaced, where it is declared and
where it is used, is compiled to exactly what it was. -/
namespace StackScript
open Compiler

/-! ### Other names in the same places -/

theorem Word.Renamed.isWritten {w w' : Word} (h : w.Renamed w') (hw : w.IsWritten) : w'.IsWritten := by
  obtain rfl | ⟨-, -, hw'⟩ := h
  · exact hw
  · exact hw'

theorem Word.count_ident {w : Word} (hk : w.kind = .ident) (hw : w.IsWritten) : w.spelling.toList.count '\n' = 0 := by
  obtain ⟨c, rest, hs, hclassify⟩ := hw.classify
  rw [hk] at hclassify
  rw [hs]
  refine List.count_eq_zero.2 fun hmem => ?_
  cases Scan.isIdentContinue_of_ident hclassify '\n' hmem

/-- An identifier goes on to no other line. -/
theorem Word.Renamed.count_newline {w w' : Word} (h : w.Renamed w') (hw : w.IsWritten) :
    w'.spelling.toList.count '\n' = w.spelling.toList.count '\n' := by
  obtain rfl | ⟨hk, hk', hw'⟩ := h
  · rfl
  · rw [count_ident hk hw, count_ident hk' hw']

theorem Word.AllRenamed.isWritten {ws ws' : List Word} (h : AllRenamed ws ws') (hw : ∀ w ∈ ws, w.IsWritten) :
    ∀ w ∈ ws', w.IsWritten := by
  induction h with
  | nil => exact hw
  | cons h _ ih =>
    rw [List.forall_mem_cons] at hw ⊢
    exact ⟨h.isWritten hw.1, ih hw.2⟩

namespace Layout
variable {pieces : List (Word × List Char)} {t : Layout} {ws : List Word}

theorem length_gaps (hw : Word.AllRenamed (pieces.map Prod.fst) ws) : ws.length = (pieces.map Prod.snd).length := by
  simpa using hw.length_eq.symm

theorem Apart.rewrite (h : Apart pieces) (hw : Word.AllRenamed (pieces.map Prod.fst) ws) :
    Apart (ws.zip (pieces.map Prod.snd)) where
  written p hp := by
    refine hw.isWritten (fun w hmem => ?_) p.1 (List.of_mem_zip hp).1
    obtain ⟨q, hq, rfl⟩ := List.mem_map.1 hmem
    exact h.written q hq
  blank p hp := by
    obtain ⟨q, hq, hgap⟩ := List.mem_map.1 (List.of_mem_zip hp).2
    exact hgap ▸ h.blank q hq
  gaps p hp := by
    have hmem : p.2 ∈ ((ws.zip (pieces.map Prod.snd)).map Prod.snd).dropLast := by
      rw [← List.map_dropLast]
      exact List.mem_map_of_mem hp
    rw [List.map_snd_zip (Nat.le_of_eq (length_gaps hw).symm), ← List.map_dropLast] at hmem
    obtain ⟨q, hq, hgap⟩ := List.mem_map.1 hmem
    exact hgap ▸ h.gaps q hq

/-- The tokens are of the same kinds and stand on the same lines. -/
theorem Apart.nameless_tokens (h : Apart pieces) (hw : Word.AllRenamed (pieces.map Prod.fst) ws) (line : Nat) :
    (tokens line (ws.zip (pieces.map Prod.snd))).map Token.nameless = (tokens line pieces).map Token.nameless ∧
      (text (ws.zip (pieces.map Prod.snd))).count '\n' = (text pieces).count '\n' := by
  induction pieces generalizing ws line with
  | nil =>
    cases hw
    exact ⟨rfl, rfl⟩
  | cons p pieces ih =>
    cases hw with
    | @cons _ w _ ws hw hws =>
      have hcount := hw.count_newline (h.written p List.mem_cons_self)
      obtain ⟨htokens, htext⟩ := ih h.tail hws (line + p.1.spelling.toList.count '\n' + p.2.count '\n')
      refine ⟨?_, ?_⟩
      · rw [List.map_cons, List.zip_cons_cons, tokens, tokens, List.map_cons, List.map_cons, hcount, htokens,
          Token.nameless, Token.nameless, hw.kind]
      · simp only [text, List.map_cons, List.zip_cons_cons, List.flatMap_cons, List.count_append, hcount] at htext ⊢
        rw [htext]

theorem IsSpaced.rewrite (h : t.IsSpaced) (hw : Word.AllRenamed t.words ws) : (t.rewrite ws).IsSpaced :=
  ⟨h.lead, h.apart.rewrite hw⟩

theorem words_rewrite (hw : Word.AllRenamed t.words ws) : (t.rewrite ws).words = ws :=
  List.map_fst_zip (Nat.le_of_eq (length_gaps hw))

theorem IsSpaced.nameless_start (h : t.IsSpaced) (hw : Word.AllRenamed t.words ws) (store : Store) (printCode : Bool) :
    (State.start (.ofSource t.source) store printCode).nameless =
      (State.start (.ofSource (t.rewrite ws).source) store printCode).nameless := by
  obtain ⟨htokens, htext⟩ := h.apart.nameless_tokens hw (1 + t.lead.count '\n')
  have hlexemes (ts : List Token) : (ts.map Lexeme.token).map Lexeme.nameless = (ts.map Token.nameless).map .token := by
    rw [List.map_map, List.map_map]
    rfl
  rw [h.ofSource, (h.rewrite hw).ofSource]
  simp only [State.start, State.nameless, hlexemes, Layout.rewrite, List.count_append, htokens, htext]

end Layout

theorem IsProgram.of_alpha {ds ds' : List Decl} (hp : IsProgram ds) (h : Decl.ListAlpha .script .script ds ds')
    (hw : ∀ w ∈ Decl.listWords ds', w.IsWritten) : IsProgram ds' := by
  have hwf := h.listWellFormed _ hp.wellFormed
  have hstopped := listStopped_of_greedy ds [] hp.wellFormed (.inr rfl) hp.greedy
  exact ⟨hwf, greedy_of_written hwf hw (h.listStopped id _ hstopped)⟩

/-! ### Compiling -/

section Compile
variable {store : Store} {printCode : Bool} {t : Layout} {r : FunctionRef}

theorem ofRun_nameless {x y : FunctionRef × State} (hscript : x.1 = y.1) (hstate : x.2.nameless = y.2.nameless)
    (hx : ¬Failed x.2) (hy : ¬Failed y.2) : Compilation.ofRun x = .ofRun y := by
  have hstore := Blind.eq_of_seen State.nameless State.store (fun _ => rfl) hstate
  have hlisting := Blind.eq_of_seen State.nameless State.listing (fun _ => rfl) hstate
  have hdefect := Blind.eq_of_seen State.nameless State.defect (fun _ => rfl) hstate
  rw [Failed, not_not] at hx hy
  rw [Compilation.ofRun, Compilation.ofRun, hscript, hstore, hlisting, hdefect, hx, hy]

/-- A program is compiled to the same whatever its local variables are called. -/
theorem compile_alpha {ds ds' : List Decl} (ht : t.IsSpaced) (hreads : (TokenStream.ofSource t.source).Reads ds)
    (h : Decl.ListAlpha .script .script ds ds') :
    (TokenStream.ofSource (t.rewrite (Decl.listWords ds')).source).Reads ds' ∧
      compile (t.rewrite (Decl.listWords ds')).source store printCode = compile t.source store printCode := by
  have hwords : t.words = Decl.listWords ds := ht.words_ofSource.symm.trans hreads.words
  have hrenamed : Word.AllRenamed t.words (Decl.listWords ds') := hwords ▸ h.listWords
  have ht' := ht.rewrite hrenamed
  have hwords' : (TokenStream.ofSource (t.rewrite (Decl.listWords ds')).source).words = Decl.listWords ds' :=
    ht'.words_ofSource.trans (Layout.words_rewrite hrenamed)
  have hwritten : ∀ w ∈ t.words, w.IsWritten := by
    intro w hw
    obtain ⟨p, hp, rfl⟩ := List.mem_map.1 hw
    exact ht.apart.written p hp
  have hp' := hreads.program.of_alpha h (hrenamed.isWritten hwritten)
  -- both are compiled as their trees say, in step
  have hlegal := (effect_writeProgram store printCode hreads.faultless (hreads.words ▸ allSpelled_words _)).succeeds.2
    hreads.legal
  have hstart : Twins (.of .script) (.of .script) (.start (.ofSource t.source) store printCode)
      (.start (.ofSource (t.rewrite (Decl.listWords ds')).source) store printCode) :=
    ⟨ht.nameless_start hrenamed store printCode, ready_start _ _ _, rfl, rfl⟩
  obtain ⟨hscript, htwins⟩ := (tracks_writeProgram h).comes _ _ hstart hlegal
  have hlegal' := mt (failed_of_nameless htwins.nameless.symm) hlegal
  have hrun := run_wholeScript (kind_ne_eof _) hreads.faultless hreads.words hreads.program hlegal
  have hrun' := run_wholeScript (kind_ne_eof _) ht'.faultless hwords' hp' hlegal'
  have hsame : compile (t.rewrite (Decl.listWords ds')).source store printCode = compile t.source store printCode := by
    rw [compile_eq_ofRun, compile_eq_ofRun, hrun, hrun']
    exact (ofRun_nameless hscript htwins.nameless hlegal hlegal').symm
  obtain ⟨r, hr, -⟩ := compile_of_reads hreads store printCode
  exact ⟨reads_of_words hwords' hp' (hsame ▸ hr), hsame⟩

/-- In an accepted source with blanks between its tokens, one local variable or parameter can have any name that is not
found in the source: written with the new name where the variable is declared and where it is used, and otherwise as it
was, the source is read as the program with the variable renamed, and is compiled to the same functions and the same
store. -/
theorem compile_renamed (ht : t.IsSpaced) (hok : (compile t.source store printCode).result = .ok r) :
    (∃ ds, (TokenStream.ofSource t.source).Reads ds) ∧
    ∀ ds, (TokenStream.ofSource t.source).Reads ds → ∀ x y ds', Decl.ListRenames x y false ds ds' →
      (⟨.ident, y⟩ : Word).IsWritten → ⟨.ident, y⟩ ∉ t.words →
      (TokenStream.ofSource (t.rewrite (Decl.listWords ds')).source).Reads ds' ∧
        compile (t.rewrite (Decl.listWords ds')).source store printCode = compile t.source store printCode := by
  refine ⟨reads_of_ok hok, fun ds hreads x y ds' hrenames hy hfresh => compile_alpha ht hreads ?_⟩
  rw [← ht.words_ofSource, hreads.words] at hfresh
  have hnames : y ∉ Scope.script.names := fun hmem => ne_empty_of_isWritten hy (List.mem_singleton.1 hmem)
  exact Decl.listAlpha_of_renames hy hnames (fun h => Bool.noConfusion h) ds hrenames hfresh

/-- A parameter that a variable of a block hides, and that a function inside does not see. -/
theorem compile_renamed_parameter :
    (compile "fwun f ( x ) [:\n x := x + 1\n [: uwu x := 5 ouo x >> :]\n iwi -d x <<\n fwun g ( ) [: out x >> :]\n:]" {} false).result =
      .ok ⟨2⟩ ∧
    compile "fwun f ( n ) [:\n n := n + 1\n [: uwu x := 5 ouo x >> :]\n iwi -d n <<\n fwun g ( ) [: out x >> :]\n:]" {} false =
      compile "fwun f ( x ) [:\n x := x + 1\n [: uwu x := 5 ouo x >> :]\n iwi -d x <<\n fwun g ( ) [: out x >> :]\n:]" {} false := by
  let body : List Decl := [.expression (.assign "x" (.binary .add (.name "x") (.literal (.number "1")))),
    .block .colon [.var "x" (some (.literal (.number "5"))), .print (.name "x") []],
    .read .number "x", .fun_ "g" [] [.out (some (.name "x"))]]
  let ds : List Decl := [.fun_ "f" ([] ++ "x" :: []) body]
  let gap : List Char := [' ']
  let line : List Char := ['\n', ' ']
  let t : Layout := ⟨[], (Decl.listWords ds).zip [gap, gap, gap, gap, gap, line, gap, gap, gap, gap, line, gap, gap, gap, gap,
    gap, gap, gap, gap, line, gap, gap, gap, line, gap, gap, gap, gap, gap, gap, gap, gap, ['\n'], []]⟩
  have hok : (compile "fwun f ( x ) [:\n x := x + 1\n [: uwu x := 5 ouo x >> :]\n iwi -d x <<\n fwun g ( ) [: out x >> :]\n:]" {}
    false).result = .ok ⟨2⟩ := by decide +kernel
  have hsource : t.source =
    "fwun f ( x ) [:\n x := x + 1\n [: uwu x := 5 ouo x >> :]\n iwi -d x <<\n fwun g ( ) [: out x >> :]\n:]" := by decide +kernel
  have ht : t.IsSpaced := by decide +kernel
  have hwf : Decl.ListWellFormed ds :=
    ⟨⟨⟨by decide, trivial, trivial⟩, ⟨trivial, ⟨trivial, trivial⟩, trivial⟩, trivial, ⟨trivial, trivial⟩, trivial⟩, trivial⟩
  have hstopped : Decl.ListEach Stopped ds [] :=
    ⟨⟨stops_mark rfl (by decide), ⟨stops_mark rfl (by decide), ⟨stops_mark rfl (by decide), trivial⟩, trivial⟩, trivial,
      ⟨stops_mark rfl (by decide), trivial⟩, trivial⟩, trivial⟩
  have hp : IsProgram ds := ⟨hwf, greedy_of_written hwf (by decide +kernel) hstopped⟩
  rw [← hsource] at hok ⊢
  have hreads := reads_of_words (ht.words_ofSource.trans (by decide +kernel)) hp hok
  have hrenamed := (compile_renamed ht hok).2 ds hreads "x" "n" _ (.inside (.parameter (by decide))) (by decide +kernel)
    (by decide +kernel)
  have hsource' : (t.rewrite (Decl.listWords [.fun_ "f" ([] ++ "n" :: []) (Decl.listRename "x" "n" body)])).source =
    "fwun f ( n ) [:\n n := n + 1\n [: uwu x := 5 ouo x >> :]\n iwi -d n <<\n fwun g ( ) [: out x >> :]\n:]" := by decide +kernel
  exact ⟨hok, hsource' ▸ hrenamed.2⟩

end Compile
end StackScript
