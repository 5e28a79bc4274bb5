import StackScript.Proofs.Machine.History
import StackScript.Proofs.Semantics.Denotes

/-! Machines that go the way of a walk: they hold what the walk holds, fail where it fails, and go on for as long as it
does. -/
namespace StackScript
open Machine

/-- A machine holds what is left of the world, under names and references of its own. -/
structure Mirrors (l : Limits) (m : Machine) (w : World) : Prop where
  frames : m.config.maxFrames = l.maxFrames
  hosts : ∀ {r n}, m.store.native? r = some n → ∃ h, l.hosts r = some h ∧ HostOf n h
  globals : ∀ x, Option.Rel (Denotes m.store) (m.global? x) (w.globals x)
  console : m.console.visible = w.console.visible
  declared : m.store.functions.size = w.declared

/-- The names of active calls. -/
def ActiveNames (s : Store) (frames : List Frame) (names : List (Option String)) : Prop :=
  List.Forall₂ (fun f x => s.Names f.function x) frames names

/-- A machine has failed where a walk has. -/
structure Ended (l : Limits) (m : Machine) (w : World) (names : List (Option String)) : Prop where
  mirrors : Mirrors l m w
  names : ActiveNames m.store m.frames names

namespace Mirrors
variable {l : Limits} {m : Machine} {w : World}

theorem with_console (h : Mirrors l m w) {c d : Console} (hcd : c.visible = d.visible) :
    Mirrors l { m with console := c } { w with console := d } := ⟨h.frames, h.hosts, h.globals, hcd, h.declared⟩

theorem with_stack (h : Mirrors l m w) (stack : Array Value) : Mirrors l { m with stack } w :=
  ⟨h.frames, h.hosts, h.globals, h.console, h.declared⟩

theorem with_frames (h : Mirrors l m w) (frames : List Frame) : Mirrors l { m with frames } w :=
  ⟨h.frames, h.hosts, h.globals, h.console, h.declared⟩

theorem goTo (h : Mirrors l m w) (ip : Nat) : Mirrors l (m.goTo ip) w := by
  unfold Machine.goTo
  split
  · exact h
  · exact h.with_frames _

/-- The store takes in strings and functions. -/
theorem with_store (h : Mirrors l m w) (hm : m.IsSound) {s : Store} (hs : m.store.Extends s)
    (hn : s.natives = m.store.natives) {declared : Nat} (hf : s.functions.size = declared) :
    Mirrors l { m with store := s } { w with declared } where
  frames := h.frames
  hosts {r n} hr := h.hosts (r := r) (by rwa [Store.native?, ← hn])
  globals x := by
    rw [global?_extends hs hm.names]
    exact rel_imp (fun _ _ => Denotes.mono hs) (h.globals x)
  console := h.console
  declared := hf

/-- A global variable gets a value. -/
theorem define {s : Scene} (h : Mirrors l m s.toWorld) {a : Symbol} {x : String} (ha : m.store.text? a = some x)
    {v : Value} {d : Datum} (hv : Denotes m.store v d) :
    Mirrors l { m with globals := m.globals.insert a v } (s.define x d).toWorld where
  frames := h.frames
  hosts := h.hosts
  globals y := by
    rw [global?_insert ha]
    change Option.Rel _ _ (if y = x then some d else s.globals y)
    split
    · exact .some hv
    · exact h.globals y
  console := h.console
  declared := h.declared

end Mirrors

theorem ActiveNames.mono {s t : Store} (hs : s.Extends t) {frames : List Frame} {names : List (Option String)}
    (h : ActiveNames s frames names) : ActiveNames t frames names := h.imp fun _ _ hn => hn.mono hs

/-! ### Single actions -/

section
variable {l : Limits} {place : Nat} {α β α' β' : Type} {post : β → Machine → α → Scene → Prop}
  {post' : β' → Machine → α' → Scene → Prop}

/-- What an action of a machine and a part of a walk come to, when they belong together and stand at a place. -/
inductive Matches (l : Limits) (place : Nat) (post : β → Machine → α → Scene → Prop) :
    EStateM.Result Halt Machine β → EStateM.Result Stop Scene α → Prop
  | works {b : β} {m : Machine} {a : α} {s : Scene} (h : post b m a s) : Matches l place post (.ok b m) (.ok a s)
  | fails {e : RuntimeError} {m : Machine} {names : List (Option String)} {s : Scene} (h : Ended l m s.toWorld names) :
      Matches l place post (.error (.failed e) m) (.error (.failed e place names) s)

theorem Matches.bind {x : Exec β} {y : Walk α} {f : β → Exec β'} {g : α → Walk α'} {m : Machine} {s : Scene}
    (h : Matches l place post (x.run m) (y.run s))
    (hf : ∀ {b m' a s'}, post b m' a s' → Matches l place post' ((f b).run m') ((g a).run s')) :
    Matches l place post' ((x >>= f).run m) ((y >>= g).run s) := by
  rw [EStateM.run_bind, EStateM.run_bind]
  generalize x.run m = result at h
  generalize y.run s = result' at h
  cases h with
  | works h => exact hf h
  | fails h => exact .fails h

theorem Matches.mono {post' : β → Machine → α → Scene → Prop} {x : EStateM.Result Halt Machine β}
    {y : EStateM.Result Stop Scene α} (h : Matches l place post x y) (hpost : ∀ b m a s, post b m a s → post' b m a s) :
    Matches l place post' x y := by
  cases h with
  | works h => exact .works (hpost _ _ _ _ h)
  | fails h => exact .fails h

end

/-! ### Walks -/

/-- A machine takes so many steps at least. -/
def GoesOn (n : Nat) (m : Machine) : Prop := ∃ k m', n ≤ k ∧ after k m = some m'

section
variable {m m' : Machine} {n k : Nat}

theorem GoesOn.zero (m : Machine) : GoesOn 0 m := ⟨0, m, Nat.le_refl 0, rfl⟩

theorem GoesOn.mono (hk : k ≤ n) (h : GoesOn n m) : GoesOn k m := by
  obtain ⟨j, m', hj, hm'⟩ := h
  exact ⟨j, m', Nat.le_trans hk hj, hm'⟩

theorem GoesOn.step (hstep : cycle.run m = .ok () m') (h : GoesOn n m') : GoesOn (n + 1) m := by
  obtain ⟨j, m'', hj, hm''⟩ := h
  exact ⟨j + 1, m'', Nat.succ_le_succ hj, by rw [after, hstep]; exact hm''⟩

theorem Machine.Steps.one (hstep : cycle.run m = .ok () m') : Steps m m' := .tail (.refl m) hstep

theorem Machine.Steps.trans {a b c : Machine} (h : Steps a b) (k : Steps b c) : Steps a c := by
  induction k with
  | refl => exact h
  | tail _ step ih => exact ih.tail step

theorem GoesOn.before (hsteps : Steps m m') (h : GoesOn n m') : GoesOn n m := by
  induction hsteps with
  | refl => exact h
  | tail _ step ih => exact ih ((h.step step).mono (Nat.le_succ n))

end

section
variable {l : Limits} {α β : Type} {m m' : Machine} {n k : Nat} {post : α → Scene → Machine → Prop}
  {post' : β → Scene → Machine → Prop} {result : EStateM.Result Stop Scene α}

/-- The place that the innermost call has come to. -/
def Machine.place? (m : Machine) : Option Nat := m.frames.head?.map Frame.ip

/-- What a machine comes to that goes the way of a walk. Where the walk is too long, the machine takes so many steps at
least. -/
inductive Follows (l : Limits) (n : Nat) (m : Machine) (post : α → Scene → Machine → Prop) :
    EStateM.Result Stop Scene α → Prop
  | arrives {a : α} {s : Scene} {m' : Machine} (steps : Steps m m') (h : post a s m') : Follows l n m post (.ok a s)
  | fails {e : RuntimeError} {place : Nat} {names : List (Option String)} {s : Scene} {m' m'' : Machine}
      (steps : Steps m m') (last : cycle.run m' = .error (.failed e) m'') (there : m'.place? = some place)
      (h : Ended l m'' s.toWorld names) : Follows l n m post (.error (.failed e place names) s)
  | tires {s : Scene} (goesOn : GoesOn n m) : Follows l n m post (.error .tired s)

namespace Follows

theorem stay {a : α} {s : Scene} (h : post a s m) : Follows l n m post ((pure a : Walk α).run s) := .arrives (.refl m) h

theorem before (hsteps : Steps m m') (h : Follows l n m' post result) : Follows l n m post result := by
  cases h with
  | arrives steps h => exact .arrives (hsteps.trans steps) h
  | fails steps last there h => exact .fails (hsteps.trans steps) last there h
  | tires goesOn => exact .tires (goesOn.before hsteps)

theorem step (hstep : cycle.run m = .ok () m') (h : Follows l n m' post result) : Follows l (n + 1) m post result := by
  cases h with
  | arrives steps h => exact .arrives (steps.head hstep) h
  | fails steps last there h => exact .fails (steps.head hstep) last there h
  | tires goesOn => exact .tires (goesOn.step hstep)

theorem fewer (hk : k ≤ n) (h : Follows l n m post result) : Follows l k m post result := by
  cases h with
  | arrives steps h => exact .arrives steps h
  | fails steps last there h => exact .fails steps last there h
  | tires goesOn => exact .tires (goesOn.mono hk)

theorem bind {x : Walk α} {f : α → Walk β} {s : Scene} (h : Follows l n m post (x.run s))
    (hf : ∀ {a s' m'}, post a s' m' → Follows l n m' post' ((f a).run s')) : Follows l n m post' ((x >>= f).run s) := by
  rw [EStateM.run_bind]
  generalize x.run s = result at h
  cases h with
  | arrives steps h => exact (hf h).before steps
  | fails steps last there h => exact .fails steps last there h
  | tires goesOn => exact .tires goesOn

theorem mono {post' : α → Scene → Machine → Prop} (h : Follows l n m post result)
    (hpost : ∀ {a s m'}, post a s m' → post' a s m') : Follows l n m post' result := by
  cases h with
  | arrives steps h => exact .arrives steps (hpost h)
  | fails steps last there h => exact .fails steps last there h
  | tires goesOn => exact .tires goesOn

/-- The machine takes more steps, which are not seen in the walk. -/
theorem onward {post' : α → Scene → Machine → Prop} (h : Follows l n m post result)
    (hpost : ∀ {a s m'}, post a s m' → ∃ m'', Steps m' m'' ∧ post' a s m'') : Follows l n m post' result := by
  cases h with
  | arrives steps h =>
    obtain ⟨m'', hsteps, h⟩ := hpost h
    exact .arrives (steps.trans hsteps) h
  | fails steps last there h => exact .fails steps last there h
  | tires goesOn => exact .tires goesOn

end Follows

/-- A single step that belongs together with a part of a walk. -/
theorem Matches.follows {a : Exec Unit} {b : Machine} {Q : Machine → α → Scene → Prop}
    (hrun : cycle.run m = a.run b) {place : Nat} (h : Matches l place (fun _ => Q) (a.run b) result)
    (hm : m.Running) (hplace : m.place? = some place) :
    Follows l n m (fun x s m' => m'.Running ∧ Q m' x s) result := by
  generalize hresult : a.run b = r at h
  cases h with
  | works h =>
    have hstep := hrun.trans hresult
    exact .arrives (.one hstep) ⟨hm.goesOn hstep, h⟩
  | fails h => exact .fails (.refl m) (hrun.trans hresult) hplace h

end

end StackScript
