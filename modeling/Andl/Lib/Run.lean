import Mathlib

/-!
# Runs of a labelled step relation

A step relation `step b es c` takes a system from `b` to `c` and emits the events `es` on the way.
-/

namespace Andl

variable {γ σ ε : Type*}

/-- The runs of `step` from `a`, with the events they emit. -/
inductive Run (step : γ → List ε → γ → Prop) (a : γ) : List ε → γ → Prop
  | nil : Run step a [] a
  | snoc {es es' : List ε} {b c : γ} : Run step a es b → step b es' c → Run step a (es ++ es') c

namespace Run

variable {step : γ → List ε → γ → Prop} {a b c : γ} {es es' : List ε}

theorem single (h : step a es b) : Run step a es b := by
  have hrun : Run step a ([] ++ es) b := snoc nil h
  rwa [List.nil_append] at hrun

/-- **Invariants** of the state and of the events so far: what holds at the start and is preserved
by every step holds at the end of every run. -/
theorem invariant (h : Run step a es b) (Inv : List ε → γ → Prop)
    (hstep : ∀ es b es' c, Inv es b → step b es' c → Inv (es ++ es') c) (ha : Inv [] a) :
    Inv es b := by
  induction h with
  | nil => exact ha
  | snoc _ hs ih => exact hstep _ _ _ _ ih hs

end Run

/-- A deterministic machine that reads events, some of which it does not accept. -/
structure Machine (σ ε : Type*) where
  ok : σ → ε → Prop
  next : σ → ε → σ

namespace Machine

variable (m : Machine σ ε)

/-- The state after reading the events. -/
def run (s : σ) (es : List ε) : σ := es.foldl m.next s

/-- Every event is accepted where it is read. -/
def Accepts : σ → List ε → Prop
  | _, [] => True
  | s, e :: es => m.ok s e ∧ Accepts (m.next s e) es

instance decidableAccepts [∀ s e, Decidable (m.ok s e)] : ∀ s es, Decidable (m.Accepts s es)
  | _, [] => isTrue trivial
  | s, e :: es =>
    have := decidableAccepts (m.next s e) es
    inferInstanceAs (Decidable (m.ok s e ∧ m.Accepts (m.next s e) es))

@[simp] theorem run_nil (s : σ) : m.run s [] = s := rfl

@[simp] theorem run_cons (s : σ) (e : ε) (es : List ε) :
    m.run s (e :: es) = m.run (m.next s e) es := rfl

theorem run_append (s : σ) (es es' : List ε) : m.run s (es ++ es') = m.run (m.run s es) es' :=
  List.foldl_append

theorem accepts_append (s : σ) (es es' : List ε) :
    m.Accepts s (es ++ es') ↔ m.Accepts s es ∧ m.Accepts (m.run s es) es' := by
  induction es generalizing s with
  | nil => simp [Accepts]
  | cons e es ih =>
    rw [List.cons_append, Accepts, Accepts, ih, run_cons, and_assoc]

/-- **Invariants of a machine**: what every accepted event preserves holds after every accepted run.
-/
theorem Accepts.invariant {m : Machine σ ε} {s : σ} {es : List ε} (h : m.Accepts s es)
    (Inv : σ → Prop) (hstep : ∀ s e, Inv s → m.ok s e → Inv (m.next s e)) (hs : Inv s) :
    Inv (m.run s es) := by
  induction es generalizing s with
  | nil => exact hs
  | cons e es ih => exact ih h.2 (hstep s e hs h.1)

end Machine

/-- **Simulation**: if every step from related states emits what the machine accepts, and ends in
related states, then so does every run. -/
theorem Run.simulates {step : γ → List ε → γ → Prop} {a b : γ} {es : List ε} {s : σ}
    (h : Run step a es b) (m : Machine σ ε) (R : γ → σ → Prop)
    (hstep : ∀ b es c s, R b s → step b es c → R c (m.run s es) ∧ m.Accepts s es)
    (ha : R a s) : R b (m.run s es) ∧ m.Accepts s es := by
  induction h with
  | nil => exact ⟨ha, trivial⟩
  | snoc _ hs ih =>
    obtain ⟨hb, hacc⟩ := ih
    obtain ⟨hc, hacc'⟩ := hstep _ _ _ _ hb hs
    rw [m.run_append, m.accepts_append]
    exact ⟨hc, hacc, hacc'⟩

/-- **Refinement**: a system whose every step, from a state that satisfies the invariant, emits what
the machine accepts and keeps the abstraction, does so over whole runs. -/
theorem Run.refines {step : γ → List ε → γ → Prop} {a b : γ} {es : List ε}
    (h : Run step a es b) (m : Machine σ ε) (Inv : γ → Prop) (abs : γ → σ)
    (hstep : ∀ b es c, Inv b → step b es c →
      Inv c ∧ m.Accepts (abs b) es ∧ abs c = m.run (abs b) es)
    (ha : Inv a) :
    Inv b ∧ m.Accepts (abs a) es ∧ abs b = m.run (abs a) es := by
  have hsim := h.simulates m (fun b s => Inv b ∧ abs b = s) (fun b es c s hb hs => by
    obtain ⟨hb, rfl⟩ := hb
    obtain ⟨hc, hacc, habs⟩ := hstep _ _ _ hb hs
    exact ⟨⟨hc, habs⟩, hacc⟩) ⟨ha, rfl⟩
  exact ⟨hsim.1.1, hsim.2, hsim.1.2⟩

end Andl
