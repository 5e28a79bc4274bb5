import StackScript.Proofs.Semantics.InStep
import StackScript.Proofs.Semantics.Interpret

/-! Two programs one behind the other. Walking through both of them together is walking through the first one and then, if
that goes well, through the second one in the world that the first one has left. -/
namespace StackScript
variable {l : Limits} {w w₁ : World} {n : Nat} {ds es : List Decl} {p : Pairing}

/-- What comes behind some declarations is carried out unless they end the function around them. -/
theorem Decl.listExec_append (enter : Walk.Enter) (loops : Nat) (c : Surroundings) (isLocal : Bool) (first : Nat)
    (ds es : List Decl) :
    listExec enter loops c isLocal first (ds ++ es) = listExec enter loops c isLocal first ds >>= fun
      | some v => pure (some v)
      | none => listExec enter loops (c.skip (listSize isLocal ds)) isLocal (first + listFunctionCount ds) es := by
  induction ds generalizing c first with
  | nil =>
    rw [listExec, pure_bind]
    rfl
  | cons d ds ih =>
    rw [List.cons_append, listExec, listExec, bind_assoc]
    congr 1
    funext o
    cases o with
    | some v => rw [pure_bind]
    | none =>
      dsimp only
      rw [ih, listFunctionCount, ← Nat.add_assoc]
      simp only [Surroundings.skip, Nat.add_assoc, listSize]

namespace World

/-- The walk through the declarations of a script. -/
def body (w : World) (l : Limits) (n : Nat) (ds : List Decl) : EStateM.Result Stop Scene (Option Datum) :=
  (Decl.listExec (Walk.invoke n) (n + 1) { l with active := [none], held := 0, place := 0 } false w.declared ds).run
    { w.load ds with locals := [("", .function ⟨w.declared + Decl.listFunctionCount ds⟩ (w.script ds))] }

/-- A script goes well only at its end, where no variable is local but the one that holds the script. -/
def IsClosed (w : World) (l : Limits) (ds : List Decl) : Prop :=
  ∀ {n o s}, w.body l n ds = .ok o s → o = none ∧ s.locals.map Prod.fst = [""]

/-- What a script comes to. -/
def bodyEnding : EStateM.Result Stop Scene (Option Datum) → Option (Ending × World)
  | .ok _ s => some (s.toWorld.finish (.ok ()))
  | .error (.failed e _ names) s => some (s.toWorld.finish (.error (e, names)))
  | .error .tired _ => none

theorem run_zero (hmax : l.maxFrames ≠ 0) : w.run l 0 ds = none := by
  rw [run, run_walk hmax]
  rfl

theorem run_succ (hmax : l.maxFrames ≠ 0) (hclosed : w.IsClosed l ds) :
    w.run l (n + 1) ds = bodyEnding (w.body l n ds) := by
  rw [run, run_walk hmax, run_invoke]
  obtain ⟨r, hr⟩ : ∃ r, w.body l n ds = r := ⟨_, rfl⟩
  have hlist : (Decl.listExec (Walk.invoke n) (n + 1) { l with active := [none], held := 0, place := 0 }
      (w.script ds).name.isSome (w.script ds).first (w.script ds).body).run
      { w.load ds with locals := (w.script ds).locals ⟨w.declared + Decl.listFunctionCount ds⟩ [] } = r := hr
  rw [EStateM.run_bind, EStateM.run_bind, hlist, hr]
  cases r with
  | ok o s =>
    obtain ⟨rfl, hnames⟩ := hclosed hr
    have hone : s.locals.length = 1 := by rw [← List.length_map (f := Prod.fst), hnames]; rfl
    have hroom : ¬l.maxFrames * 256 ≤ 0 + s.locals.length := by omega
    have hproduce (c : Surroundings) (hc : c.toLimits = l) (hheld : c.held = 0) :
      (Walk.produce c .null).run s = .ok .null s := by
      refine if_neg ?_
      rwa [Limits.space, hc, hheld]
    dsimp only [Walk.orNull]
    rw [hproduce _ rfl rfl]
    rfl
  | error stop s =>
    cases stop with
    | failed e place names => rfl
    | tired => rfl

/-- Runs a program, and another one behind it if that has gone well. -/
def runBoth (w : World) (l : Limits) (fuel : Nat) (ds es : List Decl) : Option (Ending × World) :=
  match w.run l fuel ds with
  | some (.ok (), w₁) => w₁.run l fuel es
  | r => r

/-- The same ending, in worlds that are the same but for the numbers of functions. -/
def SameEnd (p : Pairing) (r r' : Ending × World) : Prop := r.1 = r'.1 ∧ r.2.Renumbered p r'.2

theorem finish_eq (h : w.console.Reliable) (e : Ending) :
    w.finish e = (e, { w with console := { w.console with flushes := w.console.flushes + 1 } }) := by
  cases e with
  | ok _ => rw [finish, h.flush]
  | error e => rw [finish, h.flush]

/-- A flush is nothing that worlds are told apart by. -/
theorem Renumbered.flushed {w w' : World} (h : w.Renumbered p w') (n : Nat) :
    World.Renumbered p { w with console := { w.console with flushes := n } } w' :=
  ⟨h.globals, h.console.input, h.console.output, ⟨h.console.left.readable, h.console.left.writable,
    h.console.left.flushable⟩, h.console.right⟩

theorem Renumbered.finish {w w' : World} (h : w.Renumbered p w') (e : Ending) :
    SameEnd p (w.finish e) (w'.finish e) := by
  rw [finish_eq h.console.left, finish_eq h.console.right]
  refine ⟨rfl, h.globals, h.console.input, h.console.output, ?_, ?_⟩
  · exact ⟨h.console.left.readable, h.console.left.writable, h.console.left.flushable⟩
  · exact ⟨h.console.right.readable, h.console.right.writable, h.console.right.flushable⟩

theorem bodyEnding_of_sameCourse {seen : String → Prop} {post : Option Datum → Option Datum → Prop}
    {r r' : EStateM.Result Stop Scene (Option Datum)} (h : SameCourse p seen post r r') :
    Option.Rel (SameEnd p) (bodyEnding r) (bodyEnding r') := by
  cases h with
  | arrives _ hs => exact .some (hs.world.finish _)
  | fails hs => exact .some (hs.finish _)
  | tires => exact .none

theorem run_full (hmax : l.maxFrames = 0) (n : Nat) (ds : List Decl) :
    w.run l n ds = some ((w.load ds).toWorld.finish (.error (.stackOverflow, []))) := by
  rw [run, run_walk_full hmax]
  rfl

/-- A script comes to the same wherever its declarations stand, if its own value is the only local variable. -/
theorem body_inStep (hl : l.Uniform p) (ds : List Decl) {c : Surroundings}
    (hc : Surroundings.Near { l with active := [none], held := 0, place := 0 } c) {s : Scene}
    (hw : w.Renumbered p s.toWorld) (hlocals : s.locals.map Prod.fst = [""]) {first : Nat}
    (hp : p.PairsFrom w.declared first (Decl.listFunctionCount ds))
    (hnames : ∀ x, ⟨.ident, x⟩ ∈ Decl.listWords ds → x ≠ "") (n : Nat) :
    SameCourse p (· ≠ "") (Option.Rel (Datum.Renumbered p)) (w.body l n ds)
        ((Decl.listExec (Walk.invoke n) (n + 1) c false first ds).run s) := by
  refine (Decl.listExec_inStep (invoke_inStep n) (n + 1) false ds hc hl hp hnames).course ⟨⟨hw.globals, hw.console⟩, ?_⟩
  obtain ⟨⟨x, d⟩, hone, rfl⟩ := List.map_eq_singleton_iff.1 hlocals
  rw [hone]
  exact .cons ⟨rfl, fun hne => absurd rfl hne⟩ .nil

/-- Two programs one behind the other come to what the first one comes to and then, if that has gone well, the second one.
Behind the first one the functions of the second one get other numbers. -/
theorem run_append (hl : l.Uniform p) (hw : w.Renumbered p w)
    (hfirst : p.PairsFrom w.declared w.declared (Decl.listFunctionCount ds)) (hds : l.maxFrames ≠ 0 → w.IsClosed l ds)
    (hboth : l.maxFrames ≠ 0 → w.IsClosed l (ds ++ es))
    (hnext : l.maxFrames ≠ 0 → ∀ {n w₁}, w.run l n ds = some (.ok (), w₁) → w₁.IsClosed l es ∧
      p.PairsFrom w₁.declared (w.declared + Decl.listFunctionCount ds) (Decl.listFunctionCount es))
    (hnames : ∀ x, ⟨.ident, x⟩ ∈ Decl.listWords ds ++ Decl.listWords es → x ≠ "") (n : Nat) :
    Option.Rel (SameEnd p) (w.runBoth l n ds es) (w.run l n (ds ++ es)) := by
  by_cases hmax : l.maxFrames = 0
  · have hload : (w.load ds).toWorld.Renumbered p (w.load (ds ++ es)).toWorld := ⟨hw.globals, hw.console⟩
    have hend := hload.finish (.error (.stackOverflow, []))
    rw [runBoth, run_full hmax, run_full hmax]
    exact .some hend
  cases n with
  | zero =>
    rw [runBoth, run_zero hmax, run_zero hmax]
    exact .none
  | succ n =>
    have hrun := run_succ hmax (n := n) (hds hmax)
    have hcourse := body_inStep hl ds (s := { w.load (ds ++ es) with
        locals := [("", .function ⟨w.declared + Decl.listFunctionCount (ds ++ es)⟩ (w.script (ds ++ es)))] })
      ⟨rfl, rfl, rfl⟩ ⟨hw.globals, hw.console⟩ rfl hfirst (fun x hx => hnames x (List.mem_append_left _ hx)) n
    rw [runBoth, run_succ hmax (hboth hmax), body, Decl.listExec_append, EStateM.run_bind]
    generalize hbody : w.body l n ds = r at hcourse hrun
    generalize EStateM.run _ _ = r' at hcourse ⊢
    cases hcourse with
    | @arrives _ _ s s' ho hs =>
      obtain ⟨rfl, hlocals⟩ := hds hmax hbody
      cases ho
      rw [bodyEnding, finish_eq hs.world.console.left] at hrun
      obtain ⟨hes, hsecond⟩ := hnext hmax hrun
      rw [hrun]
      dsimp only
      rw [run_succ hmax hes]
      have hbehind (k : Nat) : Surroundings.Near { l with active := [none], held := 0, place := 0 }
        (Surroundings.skip { l with active := [none], held := 0, place := 0 } k) := ⟨rfl, rfl, rfl⟩
      refine bodyEnding_of_sameCourse (body_inStep hl es (hbehind _) (hs.world.flushed _) ?_ hsecond
        (fun x hx => hnames x (List.mem_append_right _ hx)) n)
      rw [← hs.locals.names, hlocals]
    | @fails e _ _ names _ _ hs =>
      have hend := hs.finish (.error (e, names))
      rw [hrun]
      exact .some hend
    | tires =>
      rw [hrun]
      exact .none

/-- What the machine goes through that runs a script shows that the script is closed. -/
theorem isClosed_of_reads {source : String} {m : Machine} (hm : m.Resting) (h : Mirrors l m w)
    (hreads : (TokenStream.ofSource source).Reads ds) (hmax : l.maxFrames ≠ 0) : w.IsClosed l ds := by
  intro n o s hbody
  obtain ⟨b, k, is, -, hbegins⟩ := exists_begins hm h hreads hmax
  have hat : k.Has 0 (is ++ returnCode) := ⟨[], [], by simp [hbegins.code], rfl⟩
  have hfollows := Decl.listExec_follows (invoke_follows n) .script w.declared ds is hbegins.list
    (fun _ => hbegins.noReturn)
    hat.left hbegins.stage
  rw [hbegins.around] at hfollows
  change Follows _ _ _ _ (w.body l n ds) at hfollows
  rw [hbody] at hfollows
  cases hfollows with
  | arrives steps hleads =>
    cases o with
    | some d =>
      have hreturned : Returned k _ s.toWorld d := hleads
      exact absurd (hreturned.frames.trans hbegins.callers) hreturned.running.active
    | none =>
      have hstage : Stage k (Scope.script.afterAll ds).names _ _ s [] := hleads
      rw [Scope.afterAll_eq, Scope.foldl_declare_of_global Scope.isLocal_script] at hstage
      exact ⟨rfl, hstage.names⟩

end World

end StackScript
