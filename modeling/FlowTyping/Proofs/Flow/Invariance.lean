import FlowTyping.Proofs.Flow.Requests

/-
  What every operation keeps

  The operations of a store do to its catalog what requests do, and enter and
  change provisional types. So what requests keep, and provisional types make no
  difference to, holds of every catalog that operations on entered types lead to
  (`Moved.invariant`).
-/
namespace FlowTyping.Store

open Steps

variable {P : Catalog → Prop} {s s' : Store} {c : Catalog}

theorem Orderly.bindings_lt (hs : s.Orderly) (observed : List (String × Node)) :
    ∀ b ∈ bindings s.graph observed, b.2.index < s.catalog.size := by
  intro b hb
  obtain ⟨binding, -, heq⟩ := List.mem_filterMap.mp hb
  obtain ⟨u, hu, rfl⟩ := Option.map_eq_some_iff.mp heq
  exact hs.typed binding.2 u hu

/-- Only entered types are specialized. -/
theorem lt_size_of_instantiate {c' : Catalog} {t target : Ty} {bs : List (String × Ty)}
    (h : c.instantiate t bs = .ok (target, c')) : t.index < c.size := by
  refine Nat.lt_of_not_le fun hle => ?_
  have hshape := Catalog.shape_of_size_le hle
  have hresolve : c.resolve t = t :=
    Catalog.resolveWithin_of_not_provisional (by rw [hshape]; rfl) _
  unfold Catalog.instantiate Catalog.templateOf Catalog.resolvedShape at h
  rw [hresolve, hshape] at h
  cases h

section Kept

variable (hrequest : ∀ c r, c.Orderly → c.Knows r → P c → P (c.perform r))
  (hpush : ∀ c p, P c → P (c.push (.provisional p)).2)
  (hset : ∀ c t p q, c.shape t = .provisional p → P c → P (c.setShape t (.provisional q)))

include hrequest

theorem kept_instantiate (hs : s.Orderly) (hP : P s.catalog) {template target : Ty}
    {observed : List (String × Node)}
    (h : s.catalog.instantiate template (bindings s.graph observed) = .ok (target, c)) : P c := by
  have hknows : s.catalog.Knows (.specialization template (bindings s.graph observed)) := by
    refine List.forall_mem_cons.mpr ⟨lt_size_of_instantiate h, fun u hu => ?_⟩
    obtain ⟨b, hb, rfl⟩ := List.mem_map.mp hu
    exact hs.bindings_lt observed b hb
  have hkept := hrequest _ _ hs.catalog hknows hP
  rwa [Catalog.perform, h] at hkept

/-- What a node comes to have is merged from its inputs, or a pointer type for that. -/
theorem kept_recompute (hs : s.Orderly) (hP : P s.catalog) (n : Node) :
    P (s.recompute n).catalog := by
  have hinputs := hs.inputs_lt n
  have hjoined : P (joined s.catalog (s.graph.inputs n)).2 := by
    unfold joined
    split
    · exact hP
    · exact hP
    · exact hrequest _ (.merge _) hs.catalog hinputs hP
  rw [catalog_recompute, combine_eq_joined]
  split
  · exact hjoined
  · exact hjoined
  · next u hu _ =>
    have horderly := (joined_follows hinputs).orderly hs.catalog
    exact hrequest _ (.pointer u) horderly
      (List.forall_mem_singleton.mpr (joined_lt_size hs.catalog.canonical hinputs hu)) hjoined

include hpush

theorem kept_install (hs : s.Orderly) (hP : P s.catalog) (template : Ty)
    (observed : List (String × Node)) (holder : Node) :
    P (left (install template observed holder s)).catalog := by
  unfold install
  rw [Steps.bind_eq]
  rcases specializationFor_cases s template observed with ⟨target, c, hmade, heq⟩ | ⟨e, heq⟩
  · rw [heq]
    exact hpush c _ (kept_instantiate hrequest hs hP hmade)
  · rw [heq]
    exact hP

include hset

theorem kept_refresh (hs : s.Orderly) (hP : P s.catalog) (t : Ty) (limit : Nat) :
    P (left (refresh t limit s)).catalog := by
  rcases refresh_left s t limit with heq | ⟨p, former, target, c, hp, hformer, hmade, hleft⟩
  · rw [heq]
    exact hP
  · have hP := kept_instantiate hrequest hs hP hmade
    have ht := Catalog.lt_size_of_provisional hp
    have hp : c.shape t = .provisional p := by rw [Catalog.shape_instantiate hmade ht, hp]
    rcases hleft with heq | ⟨-, heq⟩ | heq
    · rw [heq]
      exact hP
    · rw [heq]
      exact hset c t p _ hp hP
    · rw [heq, supersede_eq]
      refine hset _ t p _ ?_ (hpush c _ hP)
      rw [Catalog.shape_push, if_neg (Nat.ne_of_lt (Catalog.lt_size_of_provisional hp)), hp]

theorem kept_move (h : s.Move s') (hs : s.Orderly) (hP : P s.catalog) : P s'.catalog := by
  cases h with
  | request r hr => exact hrequest _ r hs.catalog hr hP
  | add | watch | unwatch | retype | overwrite => exact hP
  | bind n d =>
    rw [Store.bind_eq]
    split
    · exact kept_recompute hrequest (hs.regraph (Graph.typeAt_link s.graph n d)) hP n
    · exact hP
  | unbind n d =>
    exact kept_recompute hrequest (hs.regraph (Graph.typeAt_unlink s.graph n d)) hP n
  | propagate =>
    refine (left_drain (fun r => r.Orderly ∧ P r.catalog) (fun r n hr => ?_)
      (fun r n rest budget hr => ?_) (fun r rest hr => ?_) s.graph.budget [] ⟨hs, hP⟩).2
    · exact ⟨(hr.1.keeps_recompute n).1, kept_recompute hrequest hr.1 hr.2 n⟩
    · exact ⟨hr.1.regraph (field_taken (·.type) (fun _ => rfl) r n rest budget), hr.2⟩
    · exact ⟨hr.1.regraph fun _ => rfl, hr.2⟩
  | install template observed holder =>
    exact kept_install hrequest hpush hs hP template observed holder
  | refresh t limit => exact kept_refresh hrequest hpush hset hs hP t limit

/-- What holds of the built-in types, and is kept by requests and by changes of provisional types,
holds of every catalog that operations on entered types lead to. -/
theorem Moved.invariant (hseeded : P .seeded) (h : s.Moved) : P s.catalog := by
  induction h with
  | start limit =>
    dsimp only
    exact hseeded
  | step h hmove ih => exact kept_move hrequest hpush hset hmove h.started.orderly ih

end Kept

end FlowTyping.Store
