import Mathlib

/-! Deterministic machines driven by a sequence of requests, and nondeterministic step relations.
A machine `step : σ → ι → ο × σ` answers a request and moves to its next state; `run` feeds it a
whole sequence. A relation between the states of two machines that relates their initial states,
makes related states answer alike and is kept by every step is a simulation: the two machines then
answer alike on every request sequence. For a step relation, `Reachable` collects the states
reachable from the initial ones, and `Reachable.induction_inv` is the rule that proves an invariant
of all of them from the initial states and one step. A total over owners (threads, pools) moves,
when one owner's share is replaced, by the old and the new share (`sum_update_add`); a table
appended an entry under a fresh key keeps its keys distinct (`keys_append_nodup`). -/

namespace Lci.Machine

variable {σ τ ρ ι ο : Type}

/-- Feed `requests` to the machine from `s`: the answers in order and the final state. -/
def run (step : σ → ι → ο × σ) : σ → List ι → List ο × σ
  | s, [] => ([], s)
  | s, i :: is => ((step s i).1 :: (run step (step s i).2 is).1, (run step (step s i).2 is).2)

@[simp] theorem run_nil (step : σ → ι → ο × σ) (s : σ) : run step s [] = ([], s) := rfl

@[simp] theorem run_cons (step : σ → ι → ο × σ) (s : σ) (i : ι) (is : List ι) :
    run step s (i :: is) =
      ((step s i).1 :: (run step (step s i).2 is).1, (run step (step s i).2 is).2) := rfl

/-- `R` relates the states of `step` to those of `spec` so that related states answer every
request alike and move to related states. -/
def Simulation (step : σ → ι → ο × σ) (spec : τ → ι → ο × τ) (R : σ → τ → Prop) : Prop :=
  ∀ s t i, R s t → (step s i).1 = (spec t i).1 ∧ R (step s i).2 (spec t i).2

/-- **Simulation over whole runs.** From related states the two machines give the same answers to
every request sequence and end in related states. -/
theorem Simulation.run {step : σ → ι → ο × σ} {spec : τ → ι → ο × τ} {R : σ → τ → Prop}
    (h : Simulation step spec R) {s : σ} {t : τ} (hst : R s t) (is : List ι) :
    (Machine.run step s is).1 = (Machine.run spec t is).1 ∧
      R (Machine.run step s is).2 (Machine.run spec t is).2 := by
  induction is generalizing s t with
  | nil => exact ⟨rfl, hst⟩
  | cons i is ih =>
      obtain ⟨hout, hnext⟩ := h s t i hst
      obtain ⟨hrest, hend⟩ := ih hnext
      refine ⟨?_, hend⟩
      simp only [run_cons, hout, hrest]

/-- Two machines that simulate one specification answer alike on every request sequence. -/
theorem Simulation.run_agree {step : σ → ι → ο × σ} {step' : ρ → ι → ο × ρ}
    {spec : τ → ι → ο × τ} {R : σ → τ → Prop} {R' : ρ → τ → Prop} (h : Simulation step spec R)
    (h' : Simulation step' spec R') {s : σ} {s' : ρ} {t : τ} (hst : R s t) (hst' : R' s' t)
    (is : List ι) : (Machine.run step s is).1 = (Machine.run step' s' is).1 :=
  (h.run hst is).1.trans (h'.run hst' is).1.symm

theorem Simulation.of_inv {step : σ → ι → ο × σ} {spec : τ → ι → ο × τ} {R : σ → τ → Prop}
    {Inv : σ → Prop}
    (h : ∀ s t i, Inv s → R s t → (step s i).1 = (spec t i).1 ∧ Inv (step s i).2 ∧
      R (step s i).2 (spec t i).2) :
    Simulation step spec (fun s t => Inv s ∧ R s t) := by
  intro s t i ⟨hinv, hst⟩
  obtain ⟨hout, hinv', hst'⟩ := h s t i hinv hst
  exact ⟨hout, hinv', hst'⟩

/-- The states reachable from an initial state by steps of `next`. -/
inductive Reachable (init : σ → Prop) (next : σ → σ → Prop) : σ → Prop
  | init {s : σ} : init s → Reachable init next s
  | step {s s' : σ} : Reachable init next s → next s s' → Reachable init next s'

/-- **Invariant rule.** What holds initially and is kept by every step holds in every reachable
state. -/
theorem Reachable.induction_inv {init : σ → Prop} {next : σ → σ → Prop} {Inv : σ → Prop}
    (h0 : ∀ s, init s → Inv s) (hstep : ∀ s s', Inv s → next s s' → Inv s') {s : σ}
    (h : Reachable init next s) : Inv s := by
  induction h with
  | init hs => exact h0 _ hs
  | step _ hnext ih => exact hstep _ _ ih hnext

/-- A state that a partial step function reaches along a sequence of actions from a reachable
state is reachable. -/
theorem Reachable.of_foldlM {α : Type} {init : σ → Prop} {step : σ → α → Option σ} {s s' : σ}
    (hs : Reachable init (fun s s' => ∃ a, step s a = some s') s) (as : List α)
    (h : as.foldlM step s = some s') :
    Reachable init (fun s s' => ∃ a, step s a = some s') s' := by
  induction as generalizing s with
  | nil =>
    cases h
    exact hs
  | cons a as ih =>
    rw [List.foldlM_cons] at h
    cases ha : step s a with
    | none =>
      rw [ha] at h
      cases h
    | some t =>
      rw [ha] at h
      exact ih (hs.step ⟨a, ha⟩) h

theorem Reachable.of_foldlM_isSome {α : Type} {init : σ → Prop} {step : σ → α → Option σ} {s : σ}
    (hs : Reachable init (fun s s' => ∃ a, step s a = some s') s) (as : List α)
    (h : (as.foldlM step s).isSome = true) :
    Reachable init (fun s s' => ∃ a, step s a = some s') ((as.foldlM step s).getD s) := by
  obtain ⟨s', hs'⟩ := Option.isSome_iff_exists.mp h
  rw [hs']
  exact hs.of_foldlM as hs'

theorem Reachable.mono {init : σ → Prop} {next next' : σ → σ → Prop}
    (h : ∀ s s', next s s' → next' s s') {s : σ} (hs : Reachable init next s) :
    Reachable init next' s := by
  induction hs with
  | init hs => exact .init hs
  | step _ hnext ih => exact ih.step (h _ _ hnext)

section Shares

variable {ι κ M : Type} [DecidableEq ι] [AddCommMonoid M]

theorem sum_update_add {s : Finset ι} {i : ι} (hi : i ∈ s) (F : κ → M) (g : ι → κ) (v : κ) :
    (∑ x ∈ s, F (Function.update g i v x)) + F (g i) = (∑ x ∈ s, F (g x)) + F v := by
  have hrest : ∑ x ∈ s.erase i, F (Function.update g i v x) = ∑ x ∈ s.erase i, F (g x) :=
    Finset.sum_congr rfl fun x hx => by rw [Function.update_of_ne (Finset.ne_of_mem_erase hx)]
  rw [← Finset.add_sum_erase s _ hi, ← Finset.add_sum_erase s _ hi, hrest, Function.update_self]
  abel

end Shares

theorem keys_append_nodup {α β : Type} {l : List (α × β)} {k : α} {v : β}
    (hl : (l.map Prod.fst).Nodup) (hk : k ∉ l.map Prod.fst) :
    ((l ++ [(k, v)]).map Prod.fst).Nodup := by
  rw [List.map_append, List.map_singleton, List.nodup_append]
  refine ⟨hl, List.nodup_singleton _, fun x hx y hy hxy => hk ?_⟩
  rw [hxy, List.mem_singleton.mp hy] at hx
  exact hx

end Lci.Machine
