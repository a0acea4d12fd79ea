import Lci.Graph

/-! The invariant of a graph's runs. Everything rests on one count: `fired g act v`, the edges
into `v` whose counter increment has happened in this run, read off the loop positions of the
activations. A counter that has not been reset holds that count; a node is triggered only when
all its in-edges have fired, by the one comparison that saw its last increment; and at most one
loop ever sees the last increment of the end counter, so the graph completes once per run. -/

namespace Lci.Graph

/-- How many of its node's out-edges an activation has bumped the counter of. -/
def Activation.signaled (len : Nat) : Activation → Nat
  | .mark (.edge j) _ _ => j
  | .mark (.add j) _ _ => j
  | .mark (.cmp j _) _ _ => j + 1
  | .done => len
  | _ => 0

/-- How many of its node's out-edges an activation has run the edge function of. -/
def Activation.called (len : Nat) : Activation → Nat
  | .mark (.edge j) _ _ => j
  | .mark (.add j) _ _ => j + 1
  | .mark (.cmp j _) _ _ => j + 1
  | .done => len
  | _ => 0

/-- Whether `mark_complete` has reset the node's counter. -/
def Activation.completing : Activation → Bool
  | .mark .reset _ _ => false
  | .mark _ _ _ => true
  | .done => true
  | _ => false

def Activation.graph_completed : Activation → Bool
  | .mark _ gc _ => gc
  | _ => false

/-- The comparison an activation is about to make: the edge, and what its increment returned. -/
def Activation.cmp? : Activation → Option (Nat × Nat)
  | .mark (.cmp j n) _ _ => some (j, n)
  | _ => none

def Activation.PcBound (len : Nat) : Activation → Prop
  | .mark (.edge j) _ _ => j ≤ len
  | .mark (.add j) _ _ => j < len
  | .mark (.cmp j _) _ _ => j < len
  | _ => True

/-- The edges into `v` whose counter increment has happened. -/
def fired (g : graph_t) (act : graph_node_t → Activation) (v : graph_node_t) : Nat :=
  ∑ u ∈ g.handles.toFinset,
    ((g.out_edges u).take ((act u).signaled (g.out_edges u).length)).countP (·.1 = v)

theorem countP_take_eq_iff {α : Type} (l : List α) (p : α → Bool) (k : Nat) :
    (l.take k).countP p = l.countP p ↔ ∀ j (hj : j < l.length), p l[j] → j < k := by
  have hsplit : (l.take k ++ l.drop k).countP p = (l.take k).countP p + (l.drop k).countP p :=
    List.countP_append
  rw [List.take_append_drop] at hsplit
  constructor
  · intro h j hj hp
    by_contra hk
    have hzero : (l.drop k).countP p = 0 := by omega
    have hmem : l[j] ∈ l.drop k := List.mem_iff_getElem.mpr
      ⟨j - k, by simp; omega, by simp [Nat.add_sub_cancel' (Nat.le_of_not_lt hk)]⟩
    exact absurd hp (by simpa using List.countP_eq_zero.mp hzero _ hmem)
  · intro h
    suffices (l.drop k).countP p = 0 by omega
    refine List.countP_eq_zero.mpr fun x hx hp => ?_
    obtain ⟨i, hi, rfl⟩ := List.mem_iff_getElem.mp hx
    simp only [List.getElem_drop] at hp
    have := h (k + i) (by simp at hi; omega) hp
    omega

theorem fired_le_indegree (g : graph_t) (act : graph_node_t → Activation) (v : graph_node_t) :
    fired g act v ≤ g.indegree v :=
  Finset.sum_le_sum fun _ _ => (List.take_sublist _ _).countP_le

/-- All edges into `v` have fired exactly when `fired` has reached the in-degree. -/
theorem fired_eq_indegree_iff (g : graph_t) (act : graph_node_t → Activation)
    (v : graph_node_t) :
    fired g act v = g.indegree v ↔ ∀ u j e, (g.out_edges u)[j]? = some e → e.1 = v →
      j < (act u).signaled (g.out_edges u).length := by
  rw [fired, graph_t.indegree,
    Finset.sum_eq_sum_iff_of_le fun _ _ => (List.take_sublist _ _).countP_le]
  constructor
  · intro h u j e he hv
    have hu : u ∈ g.handles := by
      by_contra hu
      simp [out_edges_of_not_mem hu] at he
    obtain ⟨hj, rfl⟩ := List.getElem?_eq_some_iff.mp he
    exact (countP_take_eq_iff _ _ _).mp (h u (List.mem_toFinset.mpr hu)) j hj (by simpa using hv)
  · intro h u _
    refine (countP_take_eq_iff _ _ _).mpr fun j hj hp => h u j _ (List.getElem?_eq_getElem hj) ?_
    simpa using hp

theorem fired_update_of_signaled {g : graph_t} {act : graph_node_t → Activation}
    {u : graph_node_t} {a : Activation}
    (h : a.signaled (g.out_edges u).length = (act u).signaled (g.out_edges u).length) :
    fired g (Function.update act u a) = fired g act := by
  funext v
  refine Finset.sum_congr rfl fun x _ => ?_
  by_cases hx : x = u
  · subst hx
    rw [Function.update_self, h]
  · rw [Function.update_of_ne hx]

/-- Bumping the counter of `u`'s `j`-th out-edge adds it to the count of its destination. -/
theorem fired_update_succ {g : graph_t} {act : graph_node_t → Activation} {u : graph_node_t}
    {a : Activation} {j : Nat} {e : graph_node_t × Bool} (hu : u ∈ g.handles)
    (hj : (act u).signaled (g.out_edges u).length = j)
    (ha : a.signaled (g.out_edges u).length = j + 1) (he : (g.out_edges u)[j]? = some e)
    (v : graph_node_t) :
    fired g (Function.update act u a) v = fired g act v + if e.1 = v then 1 else 0 := by
  have hterm : ∀ x ∈ g.handles.toFinset,
      ((g.out_edges x).take ((Function.update act u a x).signaled (g.out_edges x).length)).countP
          (·.1 = v) =
        ((g.out_edges x).take ((act x).signaled (g.out_edges x).length)).countP (·.1 = v) +
          if x = u then (if e.1 = v then 1 else 0) else 0 := by
    intro x _
    by_cases hx : x = u
    · subst hx
      rw [Function.update_self, ha, hj, List.take_add_one, he, List.countP_append]
      simp
    · rw [Function.update_of_ne hx, if_neg hx, Nat.add_zero]
  rw [fired, Finset.sum_congr rfl hterm, Finset.sum_add_distrib, Finset.sum_ite_eq',
    if_pos (List.mem_toFinset.mpr hu), fired]

theorem fired_of_unsignaled {g : graph_t} {act : graph_node_t → Activation}
    (h : ∀ u, (act u).signaled (g.out_edges u).length = 0) (v : graph_node_t) :
    fired g act v = 0 :=
  Finset.sum_eq_zero fun u _ => by simp [h u]

/-- The invariant of the states a graph's runs reach. -/
structure Inv (g : graph_t) (s : State) : Prop where
  active : ∀ u, s.act u ≠ .idle → u ∈ g.handles
  pc_bound : ∀ u, (s.act u).PcBound (g.out_edges u).length
  started : s.act .GRAPH_START = .idle → ∀ u, s.act u = .idle
  counter : ∀ u ∈ g.handles,
    s.signals_received u = if (s.act u).completing then 0 else fired g s.act u
  counter_outside : ∀ u ∉ g.handles, s.signals_received u = 0
  end_counter : s.act .GRAPH_START ≠ .idle →
    s.m_end_signals_received = fired g s.act .GRAPH_END
  triggered : ∀ v, s.act v ≠ .idle → fired g s.act v = g.signals_expected v
  cmp_le : ∀ u j n e, (s.act u).cmp? = some (j, n) → (g.out_edges u)[j]? = some e →
    n ≤ fired g s.act e.1
  cmp_idle : ∀ u j e, (s.act u).cmp? = some (j, g.signals_expected e.1) →
    (g.out_edges u)[j]? = some e → e.1 ≠ .GRAPH_END → s.act e.1 = .idle
  cmp_unique : ∀ u u' j j' n e e', (s.act u).cmp? = some (j, n) →
    (s.act u').cmp? = some (j', n) → (g.out_edges u)[j]? = some e →
    (g.out_edges u')[j']? = some e' → e.1 = e'.1 → u = u'
  pending : ∀ v ∈ g.handles, s.act v = .idle → 0 < g.signals_expected v →
    fired g s.act v < g.signals_expected v ∨
      ∃ u j e, (s.act u).cmp? = some (j, g.signals_expected v) ∧
        (g.out_edges u)[j]? = some e ∧ e.1 = v
  end_cmp : ∀ u j e, (s.act u).cmp? = some (j, g.m_end_signals_expected) →
    (g.out_edges u)[j]? = some e → e.1 = .GRAPH_END →
    s.comp_signals = 0 ∧ ∀ u', (s.act u').graph_completed = false
  gc_full : ∀ u, (s.act u).graph_completed →
    fired g s.act .GRAPH_END = g.m_end_signals_expected ∧ s.comp_signals = 0
  gc_unique : ∀ u u', (s.act u).graph_completed → (s.act u').graph_completed → u = u'
  comp_le : s.comp_signals ≤ 1
  comp_full : s.comp_signals = 1 → fired g s.act .GRAPH_END = g.m_end_signals_expected
  deleted : s.deleted → s.comp_signals = 1 ∧ g.m_comp
  end_pending : g.m_comp → 0 < g.m_end_signals_expected →
    fired g s.act .GRAPH_END = g.m_end_signals_expected →
    s.comp_signals = 1 ∨ (∃ u, (s.act u).graph_completed) ∨
      ∃ u j e, (s.act u).cmp? = some (j, g.m_end_signals_expected) ∧
        (g.out_edges u)[j]? = some e ∧ e.1 = .GRAPH_END
  fault : s.fault ≠ some .retriggered ∧ s.fault ≠ some .too_many_signals

theorem initial_inv (g : graph_t) (e : Nat) : Inv g (initial e) := by
  have hF : fired g (fun _ => .idle) = fun _ => 0 := funext (fired_of_unsignaled fun _ => rfl)
  constructor <;> simp [initial, hF, Activation.PcBound, Activation.cmp?,
    Activation.graph_completed, Activation.completing]
  intro _ h
  omega

section Move

variable {g : graph_t} {s : State} {u : graph_node_t} {a : Activation}

theorem Inv.fail (hi : Inv g s) {f : Fault} (hf : f ≠ .retriggered ∧ f ≠ .too_many_signals) :
    Inv g (s.fail f) where
  __ := hi
  fault := by simpa [State.fail] using hf

/-- The value at which the comparison of an edge into `d` acts. -/
def graph_t.target (g : graph_t) (d : graph_node_t) : Nat :=
  if d = .GRAPH_END then g.m_end_signals_expected else g.signals_expected d

/-- An activation moves on without bumping a counter or reaching the value its comparison acts
at, and gains no graph-completed flag (it drops one only when nothing is to be signaled); the
counters are given by `f`, which must match the new activations. -/
theorem Inv.move (hi : Inv g s) (hu : s.act u ≠ .idle) (ha : a ≠ .idle)
    (hsig : a.signaled (g.out_edges u).length = (s.act u).signaled (g.out_edges u).length)
    (hcmp : a.cmp? = none)
    (hcmp' : ∀ j n e, (s.act u).cmp? = some (j, n) → (g.out_edges u)[j]? = some e →
      n ≠ g.target e.1)
    (hgc : a.graph_completed = true → (s.act u).graph_completed = true)
    (hgc' : (s.act u).graph_completed = true → a.graph_completed = false → g.m_comp = false)
    (hpc : a.PcBound (g.out_edges u).length) (f : graph_node_t → Nat)
    (hf : ∀ v ∈ g.handles,
      f v = if (Function.update s.act u a v).completing then 0 else fired g s.act v)
    (hf' : ∀ v ∉ g.handles, f v = 0) :
    Inv g { s.setAct u a with signals_received := f } := by
  have hF : fired g (Function.update s.act u a) = fired g s.act := fired_update_of_signaled hsig
  have hidle : ∀ v, Function.update s.act u a v = .idle ↔ s.act v = .idle := by
    intro v
    by_cases hv : v = u
    · subst hv
      simp [ha, hu]
    · rw [Function.update_of_ne hv]
  have hsub : ∀ v jn, (Function.update s.act u a v).cmp? = some jn → (s.act v).cmp? = some jn := by
    intro v jn h
    by_cases hv : v = u
    · subst hv
      rw [Function.update_self, hcmp] at h
      cases h
    · rwa [Function.update_of_ne hv] at h
  have hgcv : ∀ v, (Function.update s.act u a v).graph_completed = true →
      (s.act v).graph_completed = true := by
    intro v h
    by_cases hv : v = u
    · subst hv
      rw [Function.update_self] at h
      exact hgc h
    · rwa [Function.update_of_ne hv] at h
  -- a comparison the new state lacks is `u`'s, which acts at no value
  have hwit : ∀ w j n e, (s.act w).cmp? = some (j, n) → (g.out_edges w)[j]? = some e →
      n = g.target e.1 → (Function.update s.act u a w).cmp? = some (j, n) := by
    intro w j n e h he hn
    by_cases hw : w = u
    · subst hw
      exact absurd hn (hcmp' j n e h he)
    · rwa [Function.update_of_ne hw]
  constructor <;> simp only [setAct_act, setAct_comp_signals, setAct_deleted,
    setAct_m_end_signals_received, setAct_fault, hF]
  · intro v hv
    exact hi.active v ((not_congr (hidle v)).mp hv)
  · intro v
    by_cases hv : v = u
    · subst hv
      rw [Function.update_self]
      exact hpc
    · rw [Function.update_of_ne hv]
      exact hi.pc_bound v
  · intro h v
    exact (hidle v).mpr (hi.started ((hidle _).mp h) v)
  · exact hf
  · exact hf'
  · intro h
    exact hi.end_counter ((not_congr (hidle _)).mp h)
  · intro v hv
    exact hi.triggered v ((not_congr (hidle v)).mp hv)
  · intro v j n e h he
    exact hi.cmp_le v j n e (hsub v _ h) he
  · intro v j e h he hne
    exact (hidle _).mpr (hi.cmp_idle v j e (hsub v _ h) he hne)
  · intro v v' j j' n e e' h h'
    exact hi.cmp_unique v v' j j' n e e' (hsub v _ h) (hsub v' _ h')
  · intro v hv h hpos
    rcases hi.pending v hv ((hidle v).mp h) hpos with hlt | ⟨w, j, e, hw, he, rfl⟩
    · exact .inl hlt
    · have hne : e.1 ≠ .GRAPH_END := by
        rintro h'
        rw [h'] at hv
        simp at hv
      exact .inr ⟨w, j, e, hwit w j _ e hw he (by simp [graph_t.target, hne]), he, rfl⟩
  · intro v j e h he hend
    obtain ⟨hc, hgcs⟩ := hi.end_cmp v j e (hsub v _ h) he hend
    refine ⟨hc, fun v' => ?_⟩
    cases h' : (Function.update s.act u a v').graph_completed
    · rfl
    · simpa [hgcs v'] using hgcv v' h'
  · intro v h
    exact hi.gc_full v (hgcv v h)
  · intro v v' h h'
    exact hi.gc_unique v v' (hgcv v h) (hgcv v' h')
  · exact hi.comp_le
  · exact hi.comp_full
  · exact hi.deleted
  · intro hm hpos hfull
    rcases hi.end_pending hm hpos hfull with h | ⟨w, hw⟩ | ⟨w, j, e, hw, he, hend⟩
    · exact .inl h
    · by_cases hwu : w = u
      · subst hwu
        cases ha' : a.graph_completed
        · rw [hgc' hw ha'] at hm
          cases hm
        · exact .inr (.inl ⟨w, by rw [Function.update_self]; exact ha'⟩)
      · exact .inr (.inl ⟨w, by rwa [Function.update_of_ne hwu]⟩)
    · exact .inr (.inr ⟨w, j, e, hwit w j _ e hw he (by simp [graph_t.target, hend]), he, hend⟩)
  · exact hi.fault

/-- `Inv.move` for a step that leaves the counters alone and the counter reset as it was. -/
theorem Inv.setAct_quiet (hi : Inv g s) (hu : s.act u ≠ .idle) (ha : a ≠ .idle)
    (hsig : a.signaled (g.out_edges u).length = (s.act u).signaled (g.out_edges u).length)
    (hcomp : a.completing = (s.act u).completing)
    (hcmp : a.cmp? = none)
    (hcmp' : ∀ j n e, (s.act u).cmp? = some (j, n) → (g.out_edges u)[j]? = some e →
      n ≠ g.target e.1)
    (hgc : a.graph_completed = true → (s.act u).graph_completed = true)
    (hgc' : (s.act u).graph_completed = true → a.graph_completed = false → g.m_comp = false)
    (hpc : a.PcBound (g.out_edges u).length) :
    Inv g (s.setAct u a) := by
  refine hi.move hu ha hsig hcmp hcmp' hgc hgc' hpc s.signals_received (fun v hv => ?_)
    hi.counter_outside
  by_cases h : v = u
  · subst h
    rw [Function.update_self, hcomp]
    exact hi.counter v hv
  · rw [Function.update_of_ne h]
    exact hi.counter v hv

end Move

section Steps

variable {g : graph_t} {s : State} {u : graph_node_t} {j : Nat} {gc : Bool}
  {c : Option graph_node_t} {e : graph_node_t × Bool}

theorem graph_t.target_eq_indegree (hwf : WellFormed g) {d : graph_node_t}
    (hd : d = .GRAPH_END ∨ d ∈ g.handles) : g.target d = g.indegree d := by
  unfold graph_t.target
  split_ifs with h
  · subst h
    exact hwf.end_expected
  · exact hwf.expected d (hd.resolve_left h)

theorem WellFormed.dst {g : graph_t} (hwf : WellFormed g) {u : graph_node_t} {j : Nat}
    {e : graph_node_t × Bool} (he : (g.out_edges u)[j]? = some e) :
    e.1 = .GRAPH_END ∨ (e.1 ∈ g.handles ∧ e.1 ≠ .GRAPH_START) :=
  hwf.targets u e (List.mem_of_getElem? he)

/-- The edge an increment is about to bump has not fired, so its destination still waits. -/
theorem fired_lt_target (hwf : WellFormed g) (hu : s.act u = .mark (.add j) gc c) (he : (g.out_edges u)[j]? = some e) :
    fired g s.act e.1 < g.target e.1 := by
  rw [graph_t.target_eq_indegree hwf ((hwf.dst he).imp_right And.left)]
  refine lt_of_le_of_ne (fired_le_indegree g s.act e.1) fun h => ?_
  have := (fired_eq_indegree_iff g s.act e.1).mp h u j e he rfl
  simp [hu, Activation.signaled] at this

theorem Inv.add_dst_idle (hi : Inv g s) (hwf : WellFormed g)
    (hu : s.act u = .mark (.add j) gc c) (he : (g.out_edges u)[j]? = some e)
    (hne : e.1 ≠ .GRAPH_END) : s.act e.1 = .idle := by
  by_contra h
  have hlt := fired_lt_target hwf hu he
  rw [hi.triggered e.1 h, graph_t.target, if_neg hne] at hlt
  exact lt_irrefl _ hlt

theorem Inv.start_active (hi : Inv g s) {u : graph_node_t} (hu : s.act u ≠ .idle) :
    s.act .GRAPH_START ≠ .idle :=
  fun h => hu (hi.started h u)

/-- The counter increment of `u`'s `j`-th out-edge: the comparison it starts holds the number of
fired edges into the destination, and the counters `f` and `m` afterwards are those the new
activations call for. -/
theorem Inv.add (hi : Inv g s) (hwf : WellFormed g) {n : Nat}
    (hu : s.act u = .mark (.add j) gc c) (he : (g.out_edges u)[j]? = some e)
    (hn : n = fired g s.act e.1 + 1) (f : graph_node_t → Nat) (m : Nat)
    (hf : ∀ v ∈ g.handles, f v =
      if (Function.update s.act u (.mark (.cmp j n) gc c) v).completing then 0
      else fired g (Function.update s.act u (.mark (.cmp j n) gc c)) v)
    (hf' : ∀ v ∉ g.handles, f v = 0)
    (hm : m = fired g (Function.update s.act u (.mark (.cmp j n) gc c)) .GRAPH_END) :
    Inv g { s.setAct u (.mark (.cmp j n) gc c) with
      signals_received := f, m_end_signals_received := m } := by
  have hact : s.act u ≠ .idle := by simp [hu]
  have huh := hi.active u hact
  have hj : j < (g.out_edges u).length := by simpa [hu, Activation.PcBound] using hi.pc_bound u
  have hF := @fired_update_succ g s.act u (.mark (.cmp j n) gc c) j e huh
    (by simp [hu, Activation.signaled]) rfl he
  have hlt := fired_lt_target hwf hu he
  have hdst : ∀ v, s.act v ≠ .idle → e.1 ≠ v := by
    rintro v hv rfl
    by_cases hend : e.1 = .GRAPH_END
    · exact absurd (hi.active _ hv) (by rw [hend]; simp)
    · exact hv (hi.add_dst_idle hwf hu he hend)
  have hdu := hdst u hact
  have hend_lt : e.1 = .GRAPH_END → fired g s.act .GRAPH_END < g.m_end_signals_expected := by
    intro hend
    have := hlt
    rw [hend] at this
    simpa [graph_t.target] using this
  have hgcv : ∀ v, (Function.update s.act u (.mark (.cmp j n) gc c) v).graph_completed =
      (s.act v).graph_completed := by
    intro v
    by_cases hv : v = u
    · subst hv
      simp [hu, Activation.graph_completed]
    · rw [Function.update_of_ne hv]
  have hold : ∀ v jn, v ≠ u →
      (Function.update s.act u (.mark (.cmp j n) gc c) v).cmp? = some jn →
      (s.act v).cmp? = some jn := fun v jn hv h => by rwa [Function.update_of_ne hv] at h
  have hnew : (Function.update s.act u (.mark (.cmp j n) gc c) u).cmp? = some (j, n) := by
    simp [Activation.cmp?]
  have hbelow : ∀ v j' n' e', (s.act v).cmp? = some (j', n') → (g.out_edges v)[j']? = some e' →
      e'.1 = e.1 → n' < n := by
    intro v j' n' e' h he' hd
    have := hi.cmp_le v j' n' e' h he'
    rw [hd] at this
    omega
  have hcmpu : (s.act u).cmp? = none := by simp [hu, Activation.cmp?]
  constructor <;> simp only [setAct_act, setAct_comp_signals, setAct_deleted, setAct_fault, hgcv]
  · intro v hv
    by_cases h : v = u
    · rw [h]
      exact huh
    · rw [Function.update_of_ne h] at hv
      exact hi.active v hv
  · intro v
    by_cases h : v = u
    · subst h
      simpa [Activation.PcBound] using hj
    · rw [Function.update_of_ne h]
      exact hi.pc_bound v
  · intro h
    have hs : (.GRAPH_START : graph_node_t) ≠ u := by
      rintro rfl
      simp at h
    rw [Function.update_of_ne hs] at h
    exact absurd h (hi.start_active hact)
  · exact hf
  · exact hf'
  · exact fun _ => hm
  · intro v hv
    rw [hF]
    by_cases h : v = u
    · subst h
      rw [if_neg hdu, Nat.add_zero]
      exact hi.triggered v hact
    · rw [Function.update_of_ne h] at hv
      rw [if_neg (hdst v hv), Nat.add_zero]
      exact hi.triggered v hv
  · intro v j' n' e' h he'
    rw [hF]
    by_cases hv : v = u
    · subst hv
      rw [hnew] at h
      obtain ⟨rfl, rfl⟩ := Prod.mk.inj (Option.some.inj h)
      rw [he] at he'
      cases he'
      simp [hn]
    · have := hi.cmp_le v j' n' e' (hold v _ hv h) he'
      omega
  · intro v j' e' h he' hne
    by_cases hv : v = u
    · subst hv
      rw [hnew] at h
      obtain ⟨rfl, h⟩ := Prod.mk.inj (Option.some.inj h)
      rw [he] at he'
      cases he'
      rw [Function.update_of_ne hdu]
      exact hi.add_dst_idle hwf hu he hne
    · have hidle := hi.cmp_idle v j' e' (hold v _ hv h) he' hne
      have : e'.1 ≠ u := fun h' => hact (h' ▸ hidle)
      rw [Function.update_of_ne this]
      exact hidle
  · intro v v' j1 j2 n' e1 e2 h1 h2 he1 he2 hd
    by_cases hv : v = u <;> by_cases hv' : v' = u
    · rw [hv, hv']
    · rw [hv, hnew] at h1
      obtain ⟨rfl, rfl⟩ := Prod.mk.inj (Option.some.inj h1)
      rw [hv, he] at he1
      cases he1
      exact absurd (hbelow v' j2 n e2 (hold v' _ hv' h2) he2 hd.symm) (lt_irrefl _)
    · rw [hv', hnew] at h2
      obtain ⟨rfl, rfl⟩ := Prod.mk.inj (Option.some.inj h2)
      rw [hv', he] at he2
      cases he2
      exact absurd (hbelow v j1 n e1 (hold v _ hv h1) he1 hd) (lt_irrefl _)
    · exact hi.cmp_unique v v' j1 j2 n' e1 e2 (hold v _ hv h1) (hold v' _ hv' h2) he1 he2 hd
  · intro v hv h hpos
    have hvu : v ≠ u := by
      rintro rfl
      simp at h
    rw [Function.update_of_ne hvu] at h
    rw [hF]
    by_cases hd : e.1 = v
    · subst hd
      rw [if_pos rfl]
      have hlt' : fired g s.act e.1 < g.signals_expected e.1 := by
        simpa [graph_t.target, show e.1 ≠ .GRAPH_END by rintro h'; rw [h'] at hv; simp at hv]
          using hlt
      rcases Nat.lt_or_ge (fired g s.act e.1 + 1) (g.signals_expected e.1) with h' | h'
      · exact .inl h'
      · exact .inr ⟨u, j, e, by rw [hnew, hn]; congr 2; omega, he, rfl⟩
    · rw [if_neg hd, Nat.add_zero]
      rcases hi.pending v hv h hpos with h' | ⟨w, j', e', hw, he', hd'⟩
      · exact .inl h'
      · have hwu : w ≠ u := by
          rintro rfl
          rw [hcmpu] at hw
          cases hw
        exact .inr ⟨w, j', e', by rwa [Function.update_of_ne hwu], he', hd'⟩
  · intro v j' e' h he' hend
    by_cases hv : v = u
    · subst hv
      rw [hnew] at h
      obtain ⟨rfl, hn'⟩ := Prod.mk.inj (Option.some.inj h)
      rw [he] at he'
      cases he'
      have hlt' := hend_lt hend
      refine ⟨?_, fun u' => ?_⟩
      · have hle := hi.comp_le
        by_contra hc
        have := hi.comp_full (by omega)
        omega
      · cases h' : (s.act u').graph_completed
        · rfl
        · have := (hi.gc_full u' h').1
          omega
    · exact hi.end_cmp v j' e' (hold v _ hv h) he' hend
  · intro v h
    obtain ⟨hfull, hc⟩ := hi.gc_full v h
    refine ⟨?_, hc⟩
    have hne : e.1 ≠ .GRAPH_END := fun h' => by have := hend_lt h'; omega
    rw [hF, if_neg hne, Nat.add_zero, hfull]
  · exact hi.gc_unique
  · exact hi.comp_le
  · intro h
    have hfull := hi.comp_full h
    have hne : e.1 ≠ .GRAPH_END := fun h' => by have := hend_lt h'; omega
    rw [hF, if_neg hne, Nat.add_zero, hfull]
  · exact hi.deleted
  · intro hm hpos hfull
    rw [hF] at hfull
    by_cases hd : e.1 = .GRAPH_END
    · rw [if_pos hd] at hfull
      exact .inr (.inr ⟨u, j, e, by rw [hnew, hn, hd, hfull], he, hd⟩)
    · rw [if_neg (Ne.symm (Ne.symm hd)), Nat.add_zero] at hfull
      rcases hi.end_pending hm hpos hfull with h | h | ⟨w, j', e', hw, he', hd'⟩
      · exact .inl h
      · exact .inr (.inl h)
      · have hwu : w ≠ u := by
          rintro rfl
          rw [hcmpu] at hw
          cases hw
        exact .inr (.inr ⟨w, j', e', by rwa [Function.update_of_ne hwu], he', hd'⟩)
  · exact hi.fault

/-- The increment of an edge into a node bumps that node's counter. -/
theorem Inv.add_node (hi : Inv g s) (hwf : WellFormed g) {i : Nat} {b : Bool}
    (hu : s.act u = .mark (.add j) gc c) (he : (g.out_edges u)[j]? = some (.node i, b)) :
    Inv g { s.setAct u (.mark (.cmp j (s.signals_received (.node i) + 1)) gc c) with
      signals_received := Function.update s.signals_received (.node i)
        (s.signals_received (.node i) + 1) } := by
  have hact : s.act u ≠ .idle := by simp [hu]
  have hidle := hi.add_dst_idle hwf hu he (by simp)
  have hmem : graph_node_t.node i ∈ g.handles := ((hwf.dst he).resolve_left (by simp)).1
  have hcnt : s.signals_received (.node i) = fired g s.act (.node i) := by
    rw [hi.counter _ hmem]
    simp [hidle, Activation.completing]
  have hdu : graph_node_t.node i ≠ u := fun h => hact (h ▸ hidle)
  have hF := @fired_update_succ g s.act u (.mark (.cmp j (s.signals_received (.node i) + 1)) gc c)
    j _ (hi.active u hact) (by simp [hu, Activation.signaled]) rfl he
  refine hi.add hwf hu he (by rw [hcnt]) _ _ (fun v hv => ?_) (fun v hv => ?_) ?_
  · rw [hF v]
    by_cases hvi : v = .node i
    · subst hvi
      rw [Function.update_self, Function.update_of_ne hdu, hidle, hcnt]
      simp [Activation.completing]
    · have hcomp : (Function.update s.act u (.mark (.cmp j (s.signals_received (.node i) + 1)) gc c)
          v).completing = (s.act v).completing := by
        by_cases hvu : v = u
        · subst hvu
          simp [hu, Activation.completing]
        · rw [Function.update_of_ne hvu]
      rw [Function.update_of_ne hvi, hi.counter v hv, hcomp, if_neg (Ne.symm hvi), Nat.add_zero]
  · rw [Function.update_of_ne (fun h => hv (by rw [h]; exact hmem)), hi.counter_outside v hv]
  · rw [hF, if_neg (by simp), Nat.add_zero]
    exact hi.end_counter (hi.start_active hact)

/-- The increment of an edge into `GRAPH_END` bumps the end counter. -/
theorem Inv.add_end (hi : Inv g s) (hwf : WellFormed g) {b : Bool}
    (hu : s.act u = .mark (.add j) gc c) (he : (g.out_edges u)[j]? = some (.GRAPH_END, b)) :
    Inv g { s.setAct u (.mark (.cmp j (s.m_end_signals_received + 1)) gc c) with
      m_end_signals_received := s.m_end_signals_received + 1 } := by
  have hact : s.act u ≠ .idle := by simp [hu]
  have hend := hi.end_counter (hi.start_active hact)
  have hF := @fired_update_succ g s.act u (.mark (.cmp j (s.m_end_signals_received + 1)) gc c)
    j _ (hi.active u hact) (by simp [hu, Activation.signaled]) rfl he
  refine hi.add hwf hu he (by rw [hend]) _ _ (fun v hv => ?_) hi.counter_outside ?_
  · have hv' : graph_node_t.GRAPH_END ≠ v := by
      rintro rfl
      simp at hv
    have hcomp : (Function.update s.act u (.mark (.cmp j (s.m_end_signals_received + 1)) gc c)
        v).completing = (s.act v).completing := by
      by_cases hvu : v = u
      · subst hvu
        simp [hu, Activation.completing]
      · rw [Function.update_of_ne hvu]
    rw [hF v, hcomp, if_neg hv', Nat.add_zero]
    exact hi.counter v hv
  · rw [hF, if_pos rfl, hend]

/-- A comparison below the value it acts at: the loop goes on to the next edge. -/
theorem Inv.cmp_less (hi : Inv g s) {n : Nat} (hu : s.act u = .mark (.cmp j n) gc c)
    (he : (g.out_edges u)[j]? = some e) (hn : n ≠ g.target e.1) :
    Inv g (s.setAct u (.mark (.edge (j + 1)) gc c)) := by
  have hj : j < (g.out_edges u).length := by simpa [hu, Activation.PcBound] using hi.pc_bound u
  refine hi.setAct_quiet (by simp [hu]) (by simp) (by simp [hu, Activation.signaled])
    (by simp [hu, Activation.completing]) rfl (fun j' n' e' h he' => ?_)
    (by simp [hu, Activation.graph_completed])
    (fun h1 h2 => by simp [hu, Activation.graph_completed] at h1 h2; rw [h1] at h2; cases h2)
    (by simpa [Activation.PcBound] using hj)
  rw [hu] at h
  obtain ⟨rfl, rfl⟩ := Prod.mk.inj (Option.some.inj h)
  rw [he] at he'
  cases he'
  exact hn

/-- The comparison that saw a node's last increment triggers it. -/
theorem Inv.cmp_trigger (hi : Inv g s) (hwf : WellFormed g) {i : Nat} {b : Bool}
    (hu : s.act u = .mark (.cmp j (g.signals_expected (.node i))) gc c)
    (he : (g.out_edges u)[j]? = some (.node i, b)) (hidle : s.act (.node i) = .idle) :
    Inv g ((s.setAct u (.mark (.edge (j + 1)) gc c)).setAct (.node i) (.trigger (some u))) := by
  have hact : s.act u ≠ .idle := by simp [hu]
  have hdu : graph_node_t.node i ≠ u := fun h => hact (h ▸ hidle)
  have hj : j < (g.out_edges u).length := by simpa [hu, Activation.PcBound] using hi.pc_bound u
  have hmem : graph_node_t.node i ∈ g.handles := ((hwf.dst he).resolve_left (by simp)).1
  set act' := Function.update (Function.update s.act u (.mark (.edge (j + 1)) gc c)) (.node i)
    (.trigger (some u)) with hact'
  have hF : fired g act' = fired g s.act := by
    rw [hact', fired_update_of_signaled (by simp [Function.update_of_ne hdu, hidle,
      Activation.signaled]), fired_update_of_signaled (by simp [hu, Activation.signaled])]
  have hu' : act' u = .mark (.edge (j + 1)) gc c := by
    simp [hact', Function.update_of_ne (Ne.symm hdu)]
  have hd' : act' (.node i) = .trigger (some u) := by simp [hact']
  have ho : ∀ v, v ≠ u → v ≠ .node i → act' v = s.act v := fun v h1 h2 => by
    simp [hact', Function.update_of_ne h1, Function.update_of_ne h2]
  have hcompv : ∀ v, (act' v).completing = (s.act v).completing := by
    intro v
    by_cases h1 : v = u
    · subst h1
      simp [hu', hu, Activation.completing]
    · by_cases h2 : v = .node i
      · subst h2
        simp [hd', hidle, Activation.completing]
      · rw [ho v h1 h2]
  have hgcv : ∀ v, (act' v).graph_completed = (s.act v).graph_completed := by
    intro v
    by_cases h1 : v = u
    · subst h1
      simp [hu', hu, Activation.graph_completed]
    · by_cases h2 : v = .node i
      · subst h2
        simp [hd', hidle, Activation.graph_completed]
      · rw [ho v h1 h2]
  have hsub : ∀ v jn, (act' v).cmp? = some jn → v ≠ u ∧ v ≠ .node i ∧ (s.act v).cmp? = some jn := by
    intro v jn h
    by_cases h1 : v = u
    · subst h1
      simp [hu', Activation.cmp?] at h
    · by_cases h2 : v = .node i
      · subst h2
        simp [hd', Activation.cmp?] at h
      · exact ⟨h1, h2, by rwa [ho v h1 h2] at h⟩
  have hfull : fired g s.act (.node i) = g.signals_expected (.node i) := by
    have hle := hi.cmp_le u j (g.signals_expected (.node i)) _ (by simp [hu, Activation.cmp?]) he
    have hge := fired_le_indegree g s.act (.node i)
    rw [← hwf.expected _ hmem] at hge
    exact le_antisymm hge hle
  constructor <;> simp only [setAct_act, setAct_signals_received, setAct_comp_signals,
    setAct_deleted, setAct_m_end_signals_received, setAct_fault, ← hact', hF, hcompv, hgcv]
  · intro v hv
    by_cases h1 : v = u
    · rw [h1]
      exact hi.active u hact
    · by_cases h2 : v = .node i
      · rw [h2]
        exact hmem
      · rw [ho v h1 h2] at hv
        exact hi.active v hv
  · intro v
    by_cases h1 : v = u
    · subst h1
      simpa [hu', Activation.PcBound] using hj
    · by_cases h2 : v = .node i
      · subst h2
        simp [hd', Activation.PcBound]
      · rw [ho v h1 h2]
        exact hi.pc_bound v
  · intro h
    have h1 : (.GRAPH_START : graph_node_t) ≠ u := by
      rintro rfl
      simp [hu'] at h
    rw [ho _ h1 (by simp)] at h
    exact absurd h (hi.start_active hact)
  · exact hi.counter
  · exact hi.counter_outside
  · intro h
    exact hi.end_counter (hi.start_active hact)
  · intro v hv
    by_cases h1 : v = u
    · rw [h1]
      exact hi.triggered u hact
    · by_cases h2 : v = .node i
      · rw [h2]
        exact hfull
      · rw [ho v h1 h2] at hv
        exact hi.triggered v hv
  · intro v j' n' e' h he'
    exact hi.cmp_le v j' n' e' (hsub v _ h).2.2 he'
  · intro v j' e' h he' hne
    obtain ⟨h1, -, h⟩ := hsub v _ h
    have hidle' := hi.cmp_idle v j' e' h he' hne
    have hne1 : e'.1 ≠ u := fun h' => hact (h' ▸ hidle')
    have hne2 : e'.1 ≠ .node i := by
      intro h'
      refine h1 (hi.cmp_unique v u j' j _ e' _ (by rw [h, h']) (by simp [hu, Activation.cmp?])
        he' he (by rw [h']))
    rw [ho _ hne1 hne2]
    exact hidle'
  · intro v v' j1 j2 n' e1 e2 h h' he1 he2 hd
    exact hi.cmp_unique v v' j1 j2 n' e1 e2 (hsub v _ h).2.2 (hsub v' _ h').2.2 he1 he2 hd
  · intro v hv h hpos
    have h1 : v ≠ u := by
      rintro rfl
      simp [hu'] at h
    have h2 : v ≠ .node i := by
      rintro rfl
      simp [hd'] at h
    rw [ho v h1 h2] at h
    rcases hi.pending v hv h hpos with hlt | ⟨w, j', e', hw, he', rfl⟩
    · exact .inl hlt
    · have hw1 : w ≠ u := by
        rintro rfl
        rw [hu] at hw
        obtain ⟨rfl, -⟩ := Prod.mk.inj (Option.some.inj hw)
        rw [he] at he'
        cases he'
        exact h2 rfl
      have hw2 : w ≠ .node i := by
        rintro rfl
        simp [hidle, Activation.cmp?] at hw
      exact .inr ⟨w, j', e', by rwa [ho w hw1 hw2], he', rfl⟩
  · intro v j' e' h he' hend
    exact hi.end_cmp v j' e' (hsub v _ h).2.2 he' hend
  · exact hi.gc_full
  · exact hi.gc_unique
  · exact hi.comp_le
  · exact hi.comp_full
  · exact hi.deleted
  · intro hm hpos hfull'
    rcases hi.end_pending hm hpos hfull' with h | h | ⟨w, j', e', hw, he', hend⟩
    · exact .inl h
    · exact .inr (.inl h)
    · have hw1 : w ≠ u := by
        rintro rfl
        rw [hu] at hw
        obtain ⟨rfl, -⟩ := Prod.mk.inj (Option.some.inj hw)
        rw [he] at he'
        cases he'
        cases hend
      have hw2 : w ≠ .node i := by
        rintro rfl
        simp [hidle, Activation.cmp?] at hw
      exact .inr (.inr ⟨w, j', e', by rwa [ho w hw1 hw2], he', hend⟩)
  · exact hi.fault

/-- The comparison that saw the end counter's last increment marks the graph completed. -/
theorem Inv.cmp_end (hi : Inv g s) (hwf : WellFormed g) {b : Bool}
    (hu : s.act u = .mark (.cmp j g.m_end_signals_expected) gc c)
    (he : (g.out_edges u)[j]? = some (.GRAPH_END, b)) :
    Inv g (s.setAct u (.mark (.edge (j + 1)) true c)) := by
  have hact : s.act u ≠ .idle := by simp [hu]
  have hj : j < (g.out_edges u).length := by simpa [hu, Activation.PcBound] using hi.pc_bound u
  obtain ⟨hc, hgc0⟩ := hi.end_cmp u j _ (by simp [hu, Activation.cmp?]) he rfl
  have hfull : fired g s.act .GRAPH_END = g.m_end_signals_expected := by
    have hle := hi.cmp_le u j g.m_end_signals_expected _ (by simp [hu, Activation.cmp?]) he
    have hge := fired_le_indegree g s.act .GRAPH_END
    rw [← hwf.end_expected] at hge
    exact le_antisymm hge hle
  have hF : fired g (Function.update s.act u (.mark (.edge (j + 1)) true c)) = fired g s.act :=
    fired_update_of_signaled (by simp [hu, Activation.signaled])
  have hidle : ∀ v, Function.update s.act u (.mark (.edge (j + 1)) true c) v = .idle ↔
      s.act v = .idle := by
    intro v
    by_cases hv : v = u
    · subst hv
      simp [hact]
    · rw [Function.update_of_ne hv]
  have hcompv : ∀ v, (Function.update s.act u (.mark (.edge (j + 1)) true c) v).completing =
      (s.act v).completing := by
    intro v
    by_cases hv : v = u
    · subst hv
      simp [hu, Activation.completing]
    · rw [Function.update_of_ne hv]
  have hgcv : ∀ v, (Function.update s.act u (.mark (.edge (j + 1)) true c) v).graph_completed =
      true → v = u := by
    intro v h
    by_contra hv
    rw [Function.update_of_ne hv, hgc0 v] at h
    cases h
  have hsub : ∀ v jn, (Function.update s.act u (.mark (.edge (j + 1)) true c) v).cmp? = some jn →
      v ≠ u ∧ (s.act v).cmp? = some jn := by
    intro v jn h
    by_cases hv : v = u
    · subst hv
      simp [Activation.cmp?] at h
    · exact ⟨hv, by rwa [Function.update_of_ne hv] at h⟩
  constructor <;> simp only [setAct_act, setAct_signals_received, setAct_comp_signals,
    setAct_deleted, setAct_m_end_signals_received, setAct_fault, hF, hcompv]
  · intro v hv
    exact hi.active v ((not_congr (hidle v)).mp hv)
  · intro v
    by_cases hv : v = u
    · subst hv
      simpa [Activation.PcBound] using hj
    · rw [Function.update_of_ne hv]
      exact hi.pc_bound v
  · intro h v
    exact (hidle v).mpr (hi.started ((hidle _).mp h) v)
  · exact hi.counter
  · exact hi.counter_outside
  · intro h
    exact hi.end_counter ((not_congr (hidle _)).mp h)
  · intro v hv
    exact hi.triggered v ((not_congr (hidle v)).mp hv)
  · intro v j' n e' h he'
    exact hi.cmp_le v j' n e' (hsub v _ h).2 he'
  · intro v j' e' h he' hne
    exact (hidle _).mpr (hi.cmp_idle v j' e' (hsub v _ h).2 he' hne)
  · intro v v' j1 j2 n e1 e2 h h' he1 he2 hd
    exact hi.cmp_unique v v' j1 j2 n e1 e2 (hsub v _ h).2 (hsub v' _ h').2 he1 he2 hd
  · intro v hv h hpos
    rcases hi.pending v hv ((hidle v).mp h) hpos with hlt | ⟨w, j', e', hw, he', rfl⟩
    · exact .inl hlt
    · have hwu : w ≠ u := by
        rintro rfl
        rw [hu] at hw
        obtain ⟨rfl, -⟩ := Prod.mk.inj (Option.some.inj hw)
        rw [he] at he'
        cases he'
        simp at hv
      exact .inr ⟨w, j', e', by rwa [Function.update_of_ne hwu], he', rfl⟩
  · -- the only comparison at the end's value was `u`'s
    intro v j' e' h he' hend
    obtain ⟨hvu, h⟩ := hsub v _ h
    exact absurd (hi.cmp_unique v u j' j _ e' _ h (by simp [hu, Activation.cmp?]) he' he
      (by rw [hend])) hvu
  · intro v h
    obtain rfl := hgcv v h
    exact ⟨hfull, hc⟩
  · intro v v' h h'
    rw [hgcv v h, hgcv v' h']
  · exact hi.comp_le
  · exact hi.comp_full
  · exact hi.deleted
  · exact fun _ _ _ => .inr (.inl ⟨u, by simp [Activation.graph_completed]⟩)
  · exact hi.fault

/-- The loop that completed the graph leaves it: the completion object is signaled and the graph
deleted. -/
theorem Inv.complete_graph (hi : Inv g s) (hu : s.act u = .mark (.edge j) true c)
    (hj : ¬j < (g.out_edges u).length) (hm : g.m_comp = true) :
    Inv g { s.setAct u .done with deleted := true, comp_signals := s.comp_signals + 1 } := by
  have hact : s.act u ≠ .idle := by simp [hu]
  have hlen : j = (g.out_edges u).length := by
    have := hi.pc_bound u
    simp only [hu, Activation.PcBound] at this
    omega
  obtain ⟨hfull, hc⟩ := hi.gc_full u (by simp [hu, Activation.graph_completed])
  have hF : fired g (Function.update s.act u .done) = fired g s.act :=
    fired_update_of_signaled (by simp [hu, Activation.signaled, hlen])
  have hidle : ∀ v, Function.update s.act u .done v = .idle ↔ s.act v = .idle := by
    intro v
    by_cases hv : v = u
    · subst hv
      simp [hact]
    · rw [Function.update_of_ne hv]
  have hcompv : ∀ v, (Function.update s.act u .done v).completing = (s.act v).completing := by
    intro v
    by_cases hv : v = u
    · subst hv
      simp [hu, Activation.completing]
    · rw [Function.update_of_ne hv]
  have hgcv : ∀ v, (Function.update s.act u .done v).graph_completed = false := by
    intro v
    by_cases hv : v = u
    · subst hv
      simp [Activation.graph_completed]
    · rw [Function.update_of_ne hv]
      cases h : (s.act v).graph_completed
      · rfl
      · exact absurd (hi.gc_unique v u h (by simp [hu, Activation.graph_completed])) hv
  have hcmpv : ∀ v, (Function.update s.act u .done v).cmp? = (s.act v).cmp? := by
    intro v
    by_cases hv : v = u
    · subst hv
      simp [hu, Activation.cmp?]
    · rw [Function.update_of_ne hv]
  constructor <;> simp only [setAct_act, setAct_signals_received,
    setAct_m_end_signals_received, setAct_fault, hF, hcompv, hcmpv, hgcv]
  · intro v hv
    exact hi.active v ((not_congr (hidle v)).mp hv)
  · intro v
    by_cases hv : v = u
    · subst hv
      simp [Activation.PcBound]
    · rw [Function.update_of_ne hv]
      exact hi.pc_bound v
  · intro h v
    exact (hidle v).mpr (hi.started ((hidle _).mp h) v)
  · exact hi.counter
  · exact hi.counter_outside
  · intro h
    exact hi.end_counter ((not_congr (hidle _)).mp h)
  · intro v hv
    exact hi.triggered v ((not_congr (hidle v)).mp hv)
  · exact hi.cmp_le
  · intro v j' e' h he' hne
    exact (hidle _).mpr (hi.cmp_idle v j' e' h he' hne)
  · exact hi.cmp_unique
  · intro v hv h hpos
    simpa only [hcmpv] using hi.pending v hv ((hidle v).mp h) hpos
  · -- a comparison at the end's value would have come before any completed mark
    intro v j' e' h he' hend
    have := (hi.end_cmp v j' e' h he' hend).2 u
    simp [hu, Activation.graph_completed] at this
  · simp
  · simp
  · omega
  · exact fun _ => hfull
  · exact fun _ => ⟨by omega, hm⟩
  · exact fun _ _ _ => .inl (by omega)
  · exact hi.fault

theorem Inv.reset (hi : Inv g s) (hu : s.act u = .mark .reset gc c) :
    Inv g { s.setAct u (.mark (.edge 0) gc c) with
      signals_received := Function.update s.signals_received u 0 } := by
  have hact : s.act u ≠ .idle := by simp [hu]
  have huh := hi.active u hact
  refine hi.move hact (by simp) (by simp [hu, Activation.signaled]) rfl
    (by simp [hu, Activation.cmp?]) (by simp [hu, Activation.graph_completed])
    (fun h1 h2 => by simp [hu, Activation.graph_completed] at h1 h2; rw [h1] at h2; cases h2)
    (by simp [Activation.PcBound])
    _ (fun v hv => ?_) (fun v hv => ?_)
  · by_cases h : v = u
    · subst h
      simp [Activation.completing]
    · rw [Function.update_of_ne h, Function.update_of_ne h]
      exact hi.counter v hv
  · rw [Function.update_of_ne (fun h => hv (by rw [h]; exact huh))]
    exact hi.counter_outside v hv

theorem indegree_start (hwf : WellFormed g) : g.indegree .GRAPH_START = 0 := by
  refine Finset.sum_eq_zero fun u _ => List.countP_eq_zero.mpr fun e he h => ?_
  rcases hwf.targets u e he with h' | ⟨-, h'⟩
  · rw [of_decide_eq_true h] at h'
    cases h'
  · exact h' (of_decide_eq_true h)

/-- `graph_t::start` from a settled graph whose counters are back at zero. -/
theorem Inv.start_run (hi : Inv g s) (hwf : WellFormed g)
    (hzero : ∀ v ∈ g.handles, s.signals_received v = 0) (hdel : s.deleted = false) :
    Inv g { s with
      m_end_signals_received := 0
      comp_signals := 0
      act := fun u => if u = .GRAPH_START then .mark .reset false none else .idle } := by
  have hF : fired g (fun u => if u = .GRAPH_START then .mark .reset false none else .idle) =
      fun _ => 0 := funext (fired_of_unsignaled fun u => by split <;> rfl)
  have hstart : g.signals_expected .GRAPH_START = 0 := by
    rw [hwf.expected _ (by simp), indegree_start hwf]
  constructor <;> simp only [hF]
  · intro v hv
    split at hv
    · rename_i h
      rw [h]
      simp
    · exact absurd rfl hv
  · intro v
    split <;> simp [Activation.PcBound]
  · simp
  · intro v hv
    rw [hzero v hv]
    split <;> simp [Activation.completing]
  · exact hi.counter_outside
  · simp
  · intro v hv
    split at hv
    · rename_i h
      rw [h, hstart]
    · exact absurd rfl hv
  · intro v j n e h
    split at h <;> simp [Activation.cmp?] at h
  · intro v j e h
    split at h <;> simp [Activation.cmp?] at h
  · intro v v' j j' n e e' h
    split at h <;> simp [Activation.cmp?] at h
  · intro v _ _ hpos
    exact .inl hpos
  · intro v j e h
    split at h <;> simp [Activation.cmp?] at h
  · intro v h
    split at h <;> simp [Activation.graph_completed] at h
  · intro v v' h
    split at h <;> simp [Activation.graph_completed] at h
  · simp
  · simp
  · simp [hdel]
  · intro _ hpos h
    omega
  · exact hi.fault

end Steps

/-- A rank that grows along every edge between nodes: the graph has no cycle. -/
def Acyclic (g : graph_t) : Prop :=
  ∃ rank : Nat → Nat, ∀ i k, ∀ e ∈ g.out_edges (.node i), e.1 = .node k → rank i < rank k

/-- Every node has an edge into it. -/
def Fed (g : graph_t) : Prop := ∀ i < g.nodes.length, 0 < g.signals_expected (.node i)

/-- Every activation has left `idle` for good or is done. -/
def Settled (g : graph_t) (s : State) : Prop :=
  ∀ v ∈ g.handles, s.act v = .idle ∨ s.act v = .done

section Settle

variable {g : graph_t} {s : State}

theorem mem_handles_of_getElem? {u : graph_node_t} {j : Nat} {e : graph_node_t × Bool}
    (he : (g.out_edges u)[j]? = some e) : u ∈ g.handles := by
  by_contra hu
  simp [out_edges_of_not_mem hu] at he

/-- Once the start node is done and nothing moves, every node of an acyclic graph in which every
node has an in-edge is done: by induction on the rank, all edges into a node fired, so the
comparison that saw its last increment triggered it. -/
theorem Inv.all_done (hi : Inv g s) (hwf : WellFormed g) (hacyc : Acyclic g) (hfed : Fed g)
    (hset : Settled g s) (hstart : s.act .GRAPH_START = .done) :
    ∀ v ∈ g.handles, s.act v = .done := by
  obtain ⟨rank, hrank⟩ := hacyc
  have key : ∀ r i, rank i = r → i < g.nodes.length → s.act (.node i) = .done := by
    intro r
    induction r using Nat.strong_induction_on with
    | _ r ih =>
      intro i hr hlt
      have hmem : graph_node_t.node i ∈ g.handles := mem_handles.mpr (.inr ⟨i, hlt, rfl⟩)
      have hfull : fired g s.act (.node i) = g.signals_expected (.node i) := by
        rw [hwf.expected _ hmem, fired_eq_indegree_iff]
        intro u j e he hd
        have hdone : s.act u = .done := by
          cases u with
          | GRAPH_START => exact hstart
          | GRAPH_END => simp [graph_t.out_edges, graph_t.node?] at he
          | node k =>
            have hk : k < g.nodes.length := by
              simpa using mem_handles_of_getElem? he
            exact ih (rank k) (hr ▸ hrank k i e (List.mem_of_getElem? he) hd) k rfl hk
        rw [hdone]
        exact (List.getElem?_eq_some_iff.mp he).1
      rcases hset _ hmem with hidle | hdone
      · rcases hi.pending _ hmem hidle (hfed i hlt) with hlt' | ⟨w, j, e, hw, -, -⟩
        · omega
        · -- the comparison still to be made belongs to a node that is neither idle nor done
          have hwact : s.act w ≠ .idle := by
            intro h
            rw [h] at hw
            cases hw
          rcases hset w (hi.active w hwact) with h | h <;> rw [h] at hw <;> cases hw
      · exact hdone
  intro v hv
  rcases mem_handles.mp hv with rfl | ⟨i, hlt, rfl⟩
  · exact hstart
  · exact key _ i rfl hlt

/-- A settled graph has all its counters back at zero. -/
theorem Inv.settled_counters (hi : Inv g s) (hwf : WellFormed g) (hacyc : Acyclic g)
    (hfed : Fed g) (hset : Settled g s) : ∀ v ∈ g.handles, s.signals_received v = 0 := by
  intro v hv
  rw [hi.counter v hv]
  rcases hset .GRAPH_START (by simp) with hs | hs
  · -- no run has started
    have hall := hi.started hs
    rw [hall v, fired_of_unsignaled fun u => by rw [hall u]; rfl]
    simp
  · rw [hi.all_done hwf hacyc hfed hset hs v hv]
    rfl

end Settle

section Run

variable {g : graph_t} {s s' : State} {u : graph_node_t}

theorem Inv.of_mark_complete (hi : Inv g s) (hwf : WellFormed g) {pc : MarkPc} {gc : Bool}
    {c : Option graph_node_t} (hu : s.act u = .mark pc gc c)
    (h : mark_complete g s u gc c pc = some s') : Inv g s' := by
  have hact : s.act u ≠ .idle := by simp [hu]
  cases pc with
  | reset =>
    cases h
    exact hi.reset hu
  | edge j =>
    simp only [mark_complete] at h
    split_ifs at h with hj hc <;> cases h
    · -- on to the increment of edge `j`
      exact hi.setAct_quiet hact (by simp) (by simp [hu, Activation.signaled])
        (by simp [hu, Activation.completing]) rfl (by simp [hu, Activation.cmp?])
        (by simp [hu, Activation.graph_completed])
        (fun h1 h2 => by simp [hu, Activation.graph_completed] at h1 h2; rw [h1] at h2; cases h2)
        (by simpa [Activation.PcBound] using hj)
    · obtain ⟨rfl, hm⟩ := hc
      exact hi.complete_graph hu hj hm
    · -- the loop is over and there is nothing to signal
      have hlen : j = (g.out_edges u).length := by
        have := hi.pc_bound u
        simp only [hu, Activation.PcBound] at this
        omega
      exact hi.setAct_quiet hact (by simp) (by simp [hu, Activation.signaled, hlen])
        (by simp [hu, Activation.completing]) rfl (by simp [hu, Activation.cmp?])
        (by simp [Activation.graph_completed])
        (fun h1 _ => by simp [hu, Activation.graph_completed] at h1; simpa [h1] using hc)
        (by simp [Activation.PcBound])
  | add j =>
    simp only [mark_complete] at h
    split at h
    · cases h
      exact hi.add_node hwf hu ‹_›
    · cases h
      exact hi.add_end hwf hu ‹_›
    · cases h
  | cmp j n =>
    simp only [mark_complete] at h
    have hle : ∀ e, (g.out_edges u)[j]? = some e → n ≤ g.target e.1 := by
      intro e he
      have := hi.cmp_le u j n e (by simp [hu, Activation.cmp?]) he
      rw [graph_t.target_eq_indegree hwf ((hwf.dst he).imp_right And.left)]
      exact this.trans (fired_le_indegree g s.act e.1)
    split at h
    · rename_i i b he
      have hle' := hle _ he
      simp only [graph_t.target, if_neg (show graph_node_t.node i ≠ .GRAPH_END by simp)] at hle'
      split_ifs at h with h1 h2 h3 <;> cases h
      · subst h1
        exact hi.cmp_trigger hwf hu he h2
      · -- the node of the last increment is idle
        subst h1
        exact absurd (hi.cmp_idle u j _ (by simp [hu, Activation.cmp?]) he (by simp)) h2
      · exact hi.cmp_less hu he (by simpa [graph_t.target] using h1)
      · omega
    · rename_i b he
      have hle' := hle _ he
      simp only [graph_t.target, if_pos] at hle'
      split_ifs at h with h1 h2 <;> cases h
      · subst h1
        exact hi.cmp_end hwf hu he
      · exact hi.cmp_less hu he (by simpa [graph_t.target] using h1)
      · omega
    · cases h

theorem Inv.of_exec (hi : Inv g s) (hwf : WellFormed g) (h : exec g s u = some s') :
    Inv g s' := by
  unfold exec at h
  split_ifs at h with hb hd
  · cases h
    exact hi.fail (by simp)
  · split at h
    · rename_i c' hu
      cases h
      unfold trigger_node
      have hact : s.act u ≠ .idle := by simp [hu]
      split <;> exact hi.setAct_quiet hact (by simp) (by simp [hu, Activation.signaled])
        (by simp [hu, Activation.completing]) rfl (by simp [hu, Activation.cmp?])
        (by simp [Activation.graph_completed]) (by simp [hu, Activation.graph_completed])
        (by simp [Activation.PcBound])
    · exact hi.of_mark_complete hwf ‹_› h
    · cases h

theorem Inv.of_trigger_node_return (hi : Inv g s) {r : Backlog.errorcode_t}
    (h : trigger_node_return s u r = some s') : Inv g s' := by
  unfold trigger_node_return at h
  split at h
  · rename_i c' hu
    have hact : s.act u ≠ .idle := by simp [hu]
    split_ifs at h <;> cases h
    · exact hi.setAct_quiet hact (by simp) (by simp [hu, Activation.signaled])
        (by simp [hu, Activation.completing]) rfl (by simp [hu, Activation.cmp?])
        (by simp [Activation.graph_completed]) (by simp [hu, Activation.graph_completed])
        (by simp [Activation.PcBound])
    · exact hi.fail (by simp)
    · exact hi.setAct_quiet hact (by simp) (by simp [hu, Activation.signaled])
        (by simp [hu, Activation.completing]) rfl (by simp [hu, Activation.cmp?])
        (by simp [Activation.graph_completed]) (by simp [hu, Activation.graph_completed])
        (by simp [Activation.PcBound])
  · cases h

theorem Inv.of_signal (hi : Inv g s) (h : signal s u = some s') : Inv g s' := by
  unfold signal at h
  split at h
  · rename_i hu
    have hact : s.act u ≠ .idle := by simp [hu]
    split_ifs at h <;> cases h
    · exact hi.fail (by simp)
    · exact hi.setAct_quiet hact (by simp) (by simp [hu, Activation.signaled])
        (by simp [hu, Activation.completing]) rfl (by simp [hu, Activation.cmp?])
        (by simp [Activation.graph_completed]) (by simp [hu, Activation.graph_completed])
        (by simp [Activation.PcBound])
  · cases h

theorem Inv.of_start (hi : Inv g s) (hwf : WellFormed g) (hacyc : Acyclic g) (hfed : Fed g)
    (h : start g s = some s') : Inv g s' := by
  unfold start at h
  split_ifs at h with hset hdel <;> cases h
  · exact hi.fail (by simp)
  · have hset' : Settled g s := fun v hv => by
      simpa using List.all_eq_true.mp hset v hv
    exact hi.start_run hwf (hi.settled_counters hwf hacyc hfed hset') (by simpa using hdel)

theorem Inv.of_step (hi : Inv g s) (hwf : WellFormed g) (hacyc : Acyclic g) (hfed : Fed g)
    {a : Action} (h : step g s a = some s') : Inv g s' := by
  unfold step at h
  split_ifs at h
  cases a with
  | start => exact hi.of_start hwf hacyc hfed h
  | exec u => exact hi.of_exec hwf h
  | returns u r => exact hi.of_trigger_node_return h
  | signal v => exact hi.of_signal h

/-- **The invariant of every run.** On a graph built by `add_node` and `add_edge`, acyclic and
with an edge into every node, every state reached by any interleaving of the steps of
`trigger_node`, `mark_complete`, `signal` and `start` satisfies `Inv`. -/
theorem reachable_inv (hwf : WellFormed g) (hacyc : Acyclic g) (hfed : Fed g)
    (hs : Reachable g s) : Inv g s := by
  refine Machine.Reachable.induction_inv ?_ ?_ hs
  · rintro _ ⟨e, rfl⟩
    exact initial_inv g e
  · rintro s s' hi ⟨a, h⟩
    exact hi.of_step hwf hacyc hfed h

end Run

end Lci.Graph
