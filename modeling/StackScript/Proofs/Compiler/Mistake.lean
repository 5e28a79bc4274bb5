import StackScript.Proofs.Compiler.Effect

/-! Runs that part after a mistake only. What one of them goes on with then does not matter for the mistake that is
reported first. -/
namespace StackScript.Compiler
variable {α β : Type}

instance (k : TokenKind) : Enduring (accept k) := ⟨keeps_accept k⟩
instance (k : TokenKind) (what : Expectation) : Enduring (expect k what) := ⟨keeps_expect k what⟩
instance (n : Nat) : Enduring (recover n) := ⟨keeps_recover n⟩
instance (body : Action Unit) [Enduring body] : Enduring (blockInScope body) :=
  ⟨keeps_blockInScope Enduring.keeps⟩
instance (body : Action Unit) [Enduring body] : Enduring (elsePart body) := ⟨keeps_elsePart Enduring.keeps⟩
instance (n : Nat) : Enduring (declarations n) := ⟨keeps_declarations n⟩
instance (n : Nat) : Enduring (script n) := ⟨keeps_script n⟩

/-- The runs are the same, or both have made a mistake, and the first one is the same. -/
structure UpToMistake (p q : α × State) : Prop where
  first : p.2.errors[0]? = q.2.errors[0]?
  same : ¬Failed q.2 → p = q

namespace UpToMistake
variable {p q r : α × State} {a b : Action α} {f g : α → Action β} {s t : State}

theorem of_eq (h : p = q) : UpToMistake p q := ⟨congrArg (·.2.errors[0]?) h, fun _ => h⟩

theorem failed_iff (h : UpToMistake p q) : Failed p.2 ↔ Failed q.2 := by
  rw [Compiler.failed_iff, Compiler.failed_iff, h.first]

theorem eq (h : UpToMistake p q) (hp : ¬Failed p.2) : p = q := h.same fun hq => hp (h.failed_iff.2 hq)

theorem trans (h : UpToMistake p q) (k : UpToMistake q r) : UpToMistake p r where
  first := h.first.trans k.first
  same hr := by
    have hqr := k.same hr
    exact (h.same (hqr ▸ hr)).trans hqr

/-- Runs that begin alike. -/
theorem step (h : a.run s = b.run s)
    (hfg : UpToMistake ((f (b.run s).1).run (b.run s).2) ((g (b.run s).1).run (b.run s).2)) :
    UpToMistake ((a >>= f).run s) ((b >>= g).run s) := by
  rw [run_bind, run_bind, h]
  exact hfg

/-- Runs go on together from where there has been no mistake. -/
theorem bind [∀ x, Enduring (f x)] [∀ x, Enduring (g x)] (h : UpToMistake (a.run s) (b.run t))
    (hfg : ¬Failed (b.run t).2 → UpToMistake ((f (b.run t).1).run (b.run t).2) ((g (b.run t).1).run (b.run t).2)) :
    UpToMistake ((a >>= f).run s) ((b >>= g).run t) := by
  rw [run_bind, run_bind]
  by_cases hb : Failed (b.run t).2
  · have ha := h.failed_iff.2 hb
    refine ⟨?_, fun hg => absurd hb (Enduring.keeps.not_failed hg)⟩
    rw [Enduring.keeps.first ha, Enduring.keeps.first hb, h.first]
  · rw [h.same hb]
    exact hfg hb

/-- As `bind`, where both go on in the same way. -/
theorem seq [∀ x, Enduring (f x)] (h : UpToMistake (a.run s) (b.run t)) :
    UpToMistake ((a >>= f).run s) ((b >>= f).run t) := h.bind fun _ => .of_eq rfl

end UpToMistake
end StackScript.Compiler
