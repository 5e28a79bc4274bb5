import Mathlib.Data.List.Basic
import StackScript.Proofs.Code.Program
import StackScript.Proofs.Compiler.Unlined
import StackScript.Proofs.Scanning.Rejoined

/-! Layout does not matter: a source that is written anew with one blank between each two tokens has the same tokens,
and is compiled to the same code or rejected for the same mistakes. -/
namespace StackScript

/-- All of a source without faults is its tokens. -/
theorem TokenStream.IsFaultless.lexemes_eq {t : TokenStream} (h : t.IsFaultless) : t.lexemes = t.tokens.map .token := by
  have htoken : ∀ l ∈ t.lexemes, l.token?.map Lexeme.token = some l := by
    intro l hl
    cases l with
    | token u => rfl
    | fault e line => exact absurd hl (h e line)
  rw [tokens, List.map_filterMap, List.filterMap_congr htoken, List.filterMap_some]

theorem unlined_lexemes {s t : TokenStream} (hs : s.IsFaultless) (ht : t.IsFaultless)
    (h : s.tokens.map (fun t => (t.kind, t.lexeme)) = t.tokens.map fun t => (t.kind, t.lexeme)) :
    s.lexemes.map Lexeme.unlined = t.lexemes.map Lexeme.unlined := by
  have hunlined (t : TokenStream) (ht : t.IsFaultless) : t.lexemes.map Lexeme.unlined =
      (t.tokens.map fun t => (t.kind, t.lexeme)).map fun w => .token ⟨w.1, w.2, 0⟩ := by
    rw [ht.lexemes_eq, List.map_map, List.map_map]
    rfl
  rw [hunlined s hs, hunlined t ht, h]

/-- A source without faults that is written anew with one blank between each two tokens has the same tokens, and is
compiled to the same in the same store: there are the same functions, but for their line tables, and the same strings,
or there are the same mistakes at the same places, but for the lines that they are reported on. -/
theorem compile_rejoined {source : String} (h : (TokenStream.ofSource source).IsFaultless) (store : Store)
    (printCode : Bool) :
    let rejoined := (TokenStream.ofSource source).rejoined
    ((TokenStream.ofSource rejoined).IsFaultless ∧
      (TokenStream.ofSource rejoined).tokens.map (fun t => (t.kind, t.lexeme)) =
        (TokenStream.ofSource source).tokens.map fun t => (t.kind, t.lexeme)) ∧
    (compile rejoined store printCode).result.mapError (List.map CompileError.unlined) =
      (compile source store printCode).result.mapError (List.map CompileError.unlined) ∧
    (compile rejoined store printCode).store.unlined = (compile source store printCode).store.unlined := by
  obtain ⟨hfaultless, htokens⟩ := ofSource_rejoined source
  exact ⟨⟨hfaultless, htokens⟩, compile_unlined (unlined_lexemes hfaultless h htokens) store printCode⟩

/-- Packed as closely as tokens can be: where a comment stands alone between tokens, and line breaks in it and in a
string, the source written anew has blanks. -/
theorem compile_rejoined_packed :
    (TokenStream.ofSource "uwu x:=7\x7b:\n:\x7d?w?(x<-2)[:ouo\"a\nb\">>:]").rejoined =
      "uwu x := 7 ?w? ( x < - 2 ) [: ouo \"a\nb\" >> :]" ∧
    (compile "uwu x := 7 ?w? ( x < - 2 ) [: ouo \"a\nb\" >> :]" {} false).result.mapError
        (List.map CompileError.unlined) =
      (compile "uwu x:=7\x7b:\n:\x7d?w?(x<-2)[:ouo\"a\nb\">>:]" {} false).result.mapError (List.map CompileError.unlined) ∧
    (compile "uwu x := 7 ?w? ( x < - 2 ) [: ouo \"a\nb\" >> :]" {} false).store.unlined =
      (compile "uwu x:=7\x7b:\n:\x7d?w?(x<-2)[:ouo\"a\nb\">>:]" {} false).store.unlined := by
  have hok : (compile "uwu x:=7\x7b:\n:\x7d?w?(x<-2)[:ouo\"a\nb\">>:]" {} false).result = .ok ⟨0⟩ := by decide +kernel
  have hrejoined : (TokenStream.ofSource "uwu x:=7\x7b:\n:\x7d?w?(x<-2)[:ouo\"a\nb\">>:]").rejoined =
      "uwu x := 7 ?w? ( x < - 2 ) [: ouo \"a\nb\" >> :]" := by decide +kernel
  obtain ⟨ds, hds⟩ := reads_of_ok hok
  exact ⟨hrejoined, hrejoined ▸ (compile_rejoined hds.faultless {} false).2⟩

end StackScript
