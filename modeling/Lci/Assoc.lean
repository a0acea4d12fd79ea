import Mathlib.Data.List.AList

/-! Maps with unique keys, as Mathlib's `AList` and `List.dlookup`: what a run of inserts leaves
under a key, and what a growing prefix of a list with unique keys holds. These are what a loop
that fills a `std::map` entry by entry, or reads one back record by record, comes down to. -/

namespace Lci.Assoc

section Fold

variable {α β γ : Type} [DecidableEq α] (f : γ → α) (g : γ → β)

theorem lookup_foldl_insert_of_forall_ne {a : α} {l : List γ} (h : ∀ e ∈ l, f e ≠ a)
    (acc : AList fun _ : α => β) :
    (l.foldl (fun m e => m.insert (f e) (g e)) acc).lookup a = acc.lookup a := by
  induction l generalizing acc with
  | nil => rfl
  | cons e l ih =>
    rw [List.foldl_cons, ih (fun e' he' => h e' (List.mem_cons_of_mem e he')),
      AList.lookup_insert_ne (Ne.symm (h e List.mem_cons_self))]

/-- Under unique keys, a key holds what its one element carries, whatever came before. -/
theorem lookup_foldl_insert_of_mem {l : List γ} (hl : (l.map f).Nodup) {e : γ} (he : e ∈ l)
    (acc : AList fun _ : α => β) :
    (l.foldl (fun m e => m.insert (f e) (g e)) acc).lookup (f e) = some (g e) := by
  induction l generalizing acc with
  | nil => cases he
  | cons x l ih =>
    rw [List.map_cons, List.nodup_cons] at hl
    rw [List.foldl_cons]
    rcases List.mem_cons.mp he with rfl | he
    · have hne : ∀ e' ∈ l, f e' ≠ f e := fun e' he' heq => hl.1 (heq ▸ List.mem_map_of_mem he')
      rw [lookup_foldl_insert_of_forall_ne f g hne, AList.lookup_insert]
    · exact ih hl.2 he _

end Fold

section Entries

variable {α β : Type} [DecidableEq α]

/-- A map's entries inserted into another under an injective renaming of their keys: a renamed
key holds what the map held, and what the other held where the map had nothing. -/
theorem lookup_foldl_insert_entries {α' : Type} [DecidableEq α'] {f : α → α'} (hf : f.Injective)
    (s : AList fun _ : α => β) (acc : AList fun _ : α' => β) (a : α) :
    (s.entries.foldl (fun m e => m.insert (f e.1) e.2) acc).lookup (f a) =
      (s.lookup a).or (acc.lookup (f a)) := by
  by_cases ha : a ∈ s
  · obtain ⟨b, hb⟩ := Option.isSome_iff_exists.mp (AList.lookup_isSome.mpr ha)
    have hmem : (⟨a, b⟩ : Σ _ : α, β) ∈ s.entries := AList.mem_lookup_iff.mp hb
    have hnodup : (s.entries.map fun e => f e.1).Nodup := by
      have h : (s.entries.map fun e => f e.1) = s.entries.keys.map f := by simp [List.keys]
      rw [h]
      exact s.nodupKeys.map hf
    rw [hb, lookup_foldl_insert_of_mem (fun e => f e.1) Sigma.snd hnodup hmem]
    rfl
  · have hne : ∀ e ∈ s.entries, f e.1 ≠ f a := fun e he heq => ha (hf heq ▸ AList.mem_keys.mpr
      (List.mem_keys_of_mem he))
    rw [lookup_foldl_insert_of_forall_ne (fun e : Σ _ : α, β => f e.1) Sigma.snd hne,
      AList.lookup_eq_none.mpr ha]
    rfl

theorem length_entries_le_of_lookup_isSome {s : AList fun _ : α => β} {l : List α}
    (h : ∀ a, (s.lookup a).isSome → a ∈ l) : s.entries.length ≤ l.length := by
  have hsub : s.keys ⊆ l := fun a ha => h a (AList.lookup_isSome.mpr (AList.mem_keys.mp ha))
  have hlen := s.keys_nodup.length_le_of_subset hsub
  simpa [AList.keys, List.keys] using hlen

theorem dlookup_take_add_one {l : List (Σ _ : α, β)} (hl : l.NodupKeys) {i : Nat}
    (hi : i < l.length) (a : α) :
    (l.take (i + 1)).dlookup a = if a = l[i].1 then some l[i].2 else (l.take i).dlookup a := by
  have hsub : (l.take i ++ [l[i]]).keys.Nodup := by
    have h := hl.sublist (List.take_sublist (i + 1) l)
    rwa [List.take_add_one, List.getElem?_eq_getElem hi, Option.toList_some] at h
  rw [List.take_add_one, List.getElem?_eq_getElem hi, Option.toList_some, List.dlookup_append]
  split_ifs with ha
  · -- the new key is not among the earlier ones
    have hnot : a ∉ (l.take i).keys := by
      rw [List.keys_append, List.nodup_append] at hsub
      exact fun hmem => hsub.2.2 a hmem l[i].1 (by simp [List.keys]) ha
    rw [List.dlookup_eq_none.mpr hnot, ha, List.dlookup_cons_eq]
    rfl
  · rw [List.dlookup_cons_ne _ _ ha, List.dlookup_nil, Option.or_none]

end Entries

end Lci.Assoc
