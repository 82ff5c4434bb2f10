import Mathlib.Tactic.Ring

/-!
# Incremental transducers

A transducer takes one symbol after the other and writes some for each. A stream that
comes in pieces is given to it in several calls; what it knows between two of them is kept
in a state. Where a call resumes with what the one before it knew (`Resumes`), the pieces
do not matter (`calls_eq`).
-/
namespace Libpdk.Incremental

variable {State Locals In Out : Type}

/-- The symbols one after the other. -/
def run (step : Locals → In → List Out × Locals) : List In → Locals → List Out × Locals
  | [], d => ([], d)
  | c :: cs, d =>
    let (out, d) := step d c
    let (rest, d) := run step cs d
    (out ++ rest, d)

def call (step : Locals → In → List Out × Locals) (load : State → Locals)
    (save : Locals → State → State) (input : List In) (state : State) : List Out × State :=
  let (out, d) := run step input (load state)
  (out, save d state)

/-- The pieces one after the other, with one state. -/
def calls (step : Locals → In → List Out × Locals) (load : State → Locals)
    (save : Locals → State → State) : List (List In) → State → List Out × State
  | [], state => ([], state)
  | input :: pieces, state =>
    let (out, state) := call step load save input state
    let (rest, state) := calls step load save pieces state
    (out ++ rest, state)

/-- What is saved is what is loaded, and saving again leaves no trace of what was saved before.
`Fits` is what the locals of a call have to do with the state it was given. -/
structure Resumes (step : Locals → In → List Out × Locals) (load : State → Locals)
    (save : Locals → State → State) (Fits : State → Locals → Prop) : Prop where
  fits_load : ∀ state, Fits state (load state)
  fits_step : ∀ {state d}, Fits state d → ∀ c, Fits state (step d c).2
  load_save : ∀ {state d}, Fits state d → load (save d state) = d
  save_save : ∀ {state d d'}, Fits state d → Fits (save d state) d' →
    save d' (save d state) = save d' state

variable {step : Locals → In → List Out × Locals} {load : State → Locals}
  {save : Locals → State → State} {Fits : State → Locals → Prop}

theorem run_cons (c : In) (cs : List In) (d : Locals) : run step (c :: cs) d =
    ((step d c).1 ++ (run step cs (step d c).2).1, (run step cs (step d c).2).2) := rfl

theorem run_append (a b : List In) : ∀ d : Locals, run step (a ++ b) d =
    ((run step a d).1 ++ (run step b (run step a d).2).1, (run step b (run step a d).2).2) := by
  induction a with
  | nil => exact fun _ => rfl
  | cons c a ih =>
    intro d
    simp only [List.cons_append, run_cons, ih, List.append_assoc]

theorem Resumes.fits_run (h : Resumes step load save Fits) {state : State} (cs : List In) :
    ∀ {d : Locals}, Fits state d → Fits state (run step cs d).2 := by
  induction cs with
  | nil => exact fun hd => hd
  | cons c cs ih => exact fun hd => ih (h.fits_step hd c)

/-- Two calls do what one does. -/
theorem Resumes.call_append (h : Resumes step load save Fits) (a b : List In) (state : State) :
    call step load save (a ++ b) state =
      ((call step load save a state).1 ++
        (call step load save b (call step load save a state).2).1,
        (call step load save b (call step load save a state).2).2) := by
  have ha := h.fits_run a (h.fits_load state)
  have hb := h.fits_run b (h.fits_load (save (run step a (load state)).2 state))
  have hl := h.load_save ha
  simp only [call, run_append, hl]
  rw [hl] at hb
  rw [h.save_save ha hb]

theorem Resumes.calls_eq (h : Resumes step load save Fits) (pieces : List (List In)) :
    ∀ (input : List In) (state : State), calls step load save (input :: pieces) state =
      call step load save (input :: pieces).flatten state := by
  induction pieces with
  | nil =>
    intro input state
    simp only [calls, List.flatten_cons, List.flatten_nil, List.append_nil]
  | cons next pieces ih =>
    intro input state
    rw [List.flatten_cons, h.call_append, ← ih]
    rfl

end Libpdk.Incremental
