import FlowTyping.Proofs.Catalog.Delegation

/-
  Definitions in another order

  Methods no two of which have a key in common can be declared in any order. The
  catalogs that this gives have the same definitions under other handles, and in
  tables that have their keys in another order; what is bound to a key is the same
  (`Rearranged`). A call looks at all the keys of a name, so it selects the same
  definition, or misses for the same reason and shows the same definitions
  (`selection_ignores_order`).
-/
namespace FlowTyping

open Catalog

/-- A verdict and the same one in a catalog with other handles, where the definitions that are shown
come in another order. -/
inductive Renumbering.Matches (σ : Renumbering) :
    Except Miss MethodHandle → Except Miss MethodHandle → Prop
  | ok (m : MethodHandle) : Matches σ (.ok m) (.ok (σ m))
  | undefined : Matches σ (.error .undefined) (.error .undefined)
  | inapplicable {ms ms' : List MethodHandle} (h : ms'.Perm (ms.map σ)) :
      Matches σ (.error (.inapplicable ms)) (.error (.inapplicable ms'))
  | tied {ms ms' : List MethodHandle} (h : ms'.Perm (ms.map σ)) :
      Matches σ (.error (.tied ms)) (.error (.tied ms'))

theorem Renumbering.Matches.isOk_eq {σ : Renumbering} {v v' : Except Miss MethodHandle}
    (h : σ.Matches v v') : v'.isOk = v.isOk := by
  cases h <;> rfl

namespace Catalog

variable {c c' d : Catalog} {σ τ : Renumbering} {q : Query} {k : ClassHandle} {name : String}
  {overloads overloads' : Table MethodKey MethodHandle}

/-! ## Catalogs with the same definitions -/

/-- Two catalogs that have the same definitions under handles of their own, bound to the same keys. -/
structure Rearranged (σ : Renumbering) (c c' : Catalog) : Prop where
  outline : c'.outline = c.outline
  size : c'.methods.size = c.methods.size
  beyond : ∀ m, c.methods.size ≤ m.index → σ m = m
  method : ∀ m, c'.method (σ m) = c.method m
  known : ∀ k name, (c'.overloadsAt k name).isSome = (c.overloadsAt k name).isSome
  definitionAt : ∀ k name key, c'.definitionAt k name key = (c.definitionAt k name key).map σ

namespace Rearranged

theorem refl (c : Catalog) : c.Rearranged (.refl _) c where
  outline := rfl
  size := rfl
  beyond _ _ := rfl
  method _ := rfl
  known _ _ := rfl
  definitionAt _ _ _ := Option.map_id'.symm

theorem trans (h₁ : c.Rearranged σ c') (h₂ : c'.Rearranged τ d) : c.Rearranged (σ.trans τ) d where
  outline := h₂.outline.trans h₁.outline
  size := h₂.size.trans h₁.size
  beyond m hm := by
    rw [Equiv.trans_apply, h₁.beyond m hm]
    exact h₂.beyond m (h₁.size ▸ hm)
  method m := (h₂.method (σ m)).trans (h₁.method m)
  known k name := (h₂.known k name).trans (h₁.known k name)
  definitionAt k name key := by
    rw [h₂.definitionAt, h₁.definitionAt, Option.map_map]
    rfl

theorem defineMethod (h : c.Rearranged σ c') (m : Method) :
    (c.defineMethod m).2.Rearranged σ (c'.defineMethod m).2 := by
  have hlast : σ ⟨c.methods.size⟩ = ⟨c.methods.size⟩ := h.beyond _ (Nat.le_refl _)
  refine ⟨?_, ?_, fun id hid => ?_, method_defineMethod_renumbered h.size hlast h.method m,
    fun k name => ?_, fun k name key => ?_⟩
  · rw [outline_defineMethod, outline_defineMethod, h.outline]
  · rw [size_methods_defineMethod, size_methods_defineMethod, h.size]
  · rw [size_methods_defineMethod] at hid
    exact h.beyond id (Nat.le_of_succ_le hid)
  · rw [isSome_overloadsAt_defineMethod, isSome_overloadsAt_defineMethod, h.known]
    simp only [receives_congr h.outline]
  · rw [definitionAt_defineMethod, definitionAt_defineMethod, h.size, h.definitionAt]
    simp only [receives_congr h.outline]
    split
    · rw [Option.map_some, hlast]
    · rfl

theorem defineAll (h : c.Rearranged σ c') (ms : List Method) :
    (c.defineAll ms).Rearranged σ (c'.defineAll ms) := by
  induction ms generalizing c c' with
  | nil => exact h
  | cons m ms ih => exact ih (h.defineMethod m)

end Rearranged

/-! ## Exchanging two declarations -/

/-- Two methods with a key in common: one table gets both, under one name and key. -/
def Overlap (c : Catalog) (m n : Method) : Prop :=
  c.Clash m n ∧ ∃ key, key ∈ methodKeys m ∧ key ∈ methodKeys n

theorem overlap_congr (h : c'.outline = c.outline) {m n : Method} (hoverlap : c'.Overlap m n) :
    c.Overlap m n :=
  ⟨clash_congr h hoverlap.1, hoverlap.2⟩

theorem Overlap.symm {m n : Method} (h : c.Overlap m n) : c.Overlap n m := by
  obtain ⟨⟨hname, k, hm, hn⟩, key, hkey, hkey'⟩ := h
  exact ⟨⟨hname.symm, k, hn, hm⟩, key, hkey', hkey⟩

/-- Two methods without a common key can be declared in either order. -/
theorem rearranged_swap (hc : c.Indexed) {m n : Method} (hfree : ¬ c.Overlap m n) :
    ((c.defineMethod m).2.defineMethod n).2.Rearranged c.exchange
      ((c.defineMethod n).2.defineMethod m).2 := by
  have hreceives : ∀ x y k name, (c.defineMethod x).2.Receives y k name ↔ c.Receives y k name :=
    fun x => receives_congr (outline_defineMethod c x)
  refine ⟨?_, ?_, fun id hid => ?_, method_exchange c m n, fun k name => ?_, fun k name key => ?_⟩
  · rw [outline_defineMethod, outline_defineMethod, outline_defineMethod, outline_defineMethod]
  · simp only [size_methods_defineMethod]
  · rw [size_methods_defineMethod, size_methods_defineMethod] at hid
    exact exchange_other (by omega) (by omega)
  · simp only [isSome_overloadsAt_defineMethod, hreceives]
    exact Bool.or_left_comm _ _ _
  · simp only [definitionAt_defineMethod, hreceives, size_methods_defineMethod]
    by_cases hm : c.Receives m k name ∧ key ∈ methodKeys m
    · have hn : ¬ (c.Receives n k name ∧ key ∈ methodKeys n) := fun hn =>
        hfree ⟨⟨hm.1.2.2.symm.trans hn.1.2.2, k, hm.1.1, hn.1.1⟩, key, hm.2, hn.2⟩
      rw [if_pos hm, if_neg hn, if_pos hm, Option.map_some, exchange_first]
    · rw [if_neg hm, if_neg hm]
      by_cases hn : c.Receives n k name ∧ key ∈ methodKeys n
      · rw [if_pos hn, if_pos hn, Option.map_some, exchange_second]
      · rw [if_neg hn, if_neg hn]
        cases hold : c.definitionAt k name key with
        | none => rfl
        | some id =>
          have hlt := hc.lt_of_definitionAt hold
          rw [Option.map_some, exchange_other (by omega) (by omega)]

/-- Methods of which no two have a key in common can be declared in any order. -/
theorem rearranged_of_perm (hc : c.Indexed) {ms ms' : List Method} (hperm : ms.Perm ms')
    (hfree : ms.Pairwise fun m n => ¬ c.Overlap m n) :
    ∃ σ : Renumbering, (∀ id, id.index < c.methods.size → σ id = id) ∧
      (c.defineAll ms).Rearranged σ (c.defineAll ms') := by
  induction hperm generalizing c with
  | nil => exact ⟨_, fun _ _ => rfl, .refl c⟩
  | @cons m l l' _ ih =>
    have hrest : l.Pairwise fun m' n' => ¬ (c.defineMethod m).2.Overlap m' n' :=
      (List.pairwise_cons.mp hfree).2.imp fun h hoverlap =>
        h (overlap_congr (outline_defineMethod c m) hoverlap)
    obtain ⟨σ, hσ, hrearranged⟩ := ih (hc.defineMethod m) hrest
    refine ⟨σ, fun id hid => hσ id ?_, hrearranged⟩
    rw [size_methods_defineMethod]
    exact Nat.lt_succ_of_lt hid
  | swap m n l =>
    have hmn : ¬ c.Overlap n m := (List.pairwise_cons.mp hfree).1 m List.mem_cons_self
    refine ⟨c.exchange, fun id hid => exchange_other (by omega) (by omega), ?_⟩
    exact (rearranged_swap hc hmn).defineAll l
  | trans hfirst _ ih ih' =>
    have hfree' := hfirst.pairwise hfree fun h hoverlap => h hoverlap.symm
    obtain ⟨σ, hσ, h⟩ := ih hc hfree
    obtain ⟨τ, hτ, h'⟩ := ih' hc hfree'
    refine ⟨σ.trans τ, fun id hid => ?_, h.trans h'⟩
    rw [Equiv.trans_apply, hσ id hid, hτ id hid]

/-! ## Selecting a definition -/

theorem perm_of_mem_iff {l l' : List MethodHandle} (hl : l.Nodup) (hl' : l'.Nodup)
    (h : ∀ id, σ id ∈ l' ↔ id ∈ l) : l'.Perm (l.map σ) := by
  refine (List.perm_ext_iff_of_nodup hl' (hl.map σ.injective)).mpr fun id => ?_
  obtain ⟨id, rfl⟩ := σ.surjective id
  rw [h, List.mem_map_of_injective σ.injective]

theorem mostSpecific_perm {receiver : Ty} {candidates candidates' : List MethodHandle}
    (h : candidates'.Perm candidates) :
    (c.mostSpecific receiver candidates').Perm (c.mostSpecific receiver candidates) := by
  have hcovered : ∀ m, (candidates'.all fun other => other == m || c.moreGeneral receiver other m) =
      candidates.all fun other => other == m || c.moreGeneral receiver other m := fun m => by
    rw [Bool.eq_iff_iff, List.all_eq_true, List.all_eq_true]
    simp only [h.mem_iff]
  unfold mostSpecific
  rw [funext hcovered]
  exact h.filter _

namespace Rearranged

theorem mem_definitions (h : c.Rearranged σ c') (hc : c.Indexed) (hc' : c'.Indexed)
    (hoverloads : c.overloadsAt k name = some overloads)
    (hoverloads' : c'.overloadsAt k name = some overloads') (keep : MethodKey → Bool)
    (id : MethodHandle) : σ id ∈ definitions overloads' keep ↔ id ∈ definitions overloads keep := by
  rw [Catalog.mem_definitions, Catalog.mem_definitions]
  refine exists_congr fun key => and_congr_left fun _ => ?_
  rw [hc.mem_entries_iff hoverloads, hc'.mem_entries_iff hoverloads', h.definitionAt,
    Option.map_eq_some_iff]
  exact ⟨fun ⟨id', hid', hsame⟩ => σ.injective hsame ▸ hid', fun hid => ⟨id, hid, rfl⟩⟩

theorem definitions_perm (h : c.Rearranged σ c') (hc : c.Indexed) (hc' : c'.Indexed)
    (hoverloads : c.overloadsAt k name = some overloads)
    (hoverloads' : c'.overloadsAt k name = some overloads') (keep : MethodKey → Bool) :
    (definitions overloads' keep).Perm ((definitions overloads keep).map σ) :=
  perm_of_mem_iff (nodup_definitions _ _) (nodup_definitions _ _)
    (h.mem_definitions hc hc' hoverloads hoverloads' keep)

/-- A table that has the same definitions under the same keys says the same to a call. -/
theorem selectAmong (h : c.Rearranged σ c') (hc : c.Indexed) (hc' : c'.Indexed)
    (hoverloads : c.overloadsAt k name = some overloads)
    (hoverloads' : c'.overloadsAt k name = some overloads') (q : Query) :
    σ.Matches (c.selectAmong q overloads) (c'.selectAmong q overloads') := by
  have hperm := h.definitions_perm hc hc' hoverloads hoverloads'
  have happlicable := hperm (c.fits q)
  unfold Catalog.selectAmong
  rw [fits_of_outline h.outline]
  generalize definitions overloads (c.fits q) = applicable at happlicable ⊢
  generalize definitions overloads' (c.fits q) = applicable' at happlicable ⊢
  have hspecific : (c'.mostSpecific q.receiver applicable').Perm
      ((c.mostSpecific q.receiver applicable).map σ) :=
    mostSpecific_map h.outline h.method q.receiver applicable ▸ mostSpecific_perm happlicable
  cases applicable with
  | nil =>
    obtain rfl := List.perm_nil.mp happlicable
    refine .inapplicable ?_
    have hform := hperm fun key =>
      key.restrictions.length == q.arguments.length && key.yields == q.yields
    rw [hform.isEmpty_eq, List.isEmpty_map]
    split
    · exact hperm _
    · exact hform
  | cons first rest =>
    cases applicable' with
    | nil => cases happlicable.nil_eq
    | cons first' rest' =>
      dsimp only
      generalize c.mostSpecific q.receiver (first :: rest) = minimal at hspecific ⊢
      generalize c'.mostSpecific q.receiver (first' :: rest') = minimal' at hspecific ⊢
      match minimal with
      | [] =>
        obtain rfl := List.perm_nil.mp hspecific
        exact .tied happlicable
      | [best] =>
        obtain rfl := List.perm_singleton.mp hspecific
        exact .ok best
      | one :: other :: others =>
        match minimal', hspecific.length_eq with
        | _ :: _ :: _, _ => exact .tied hspecific

theorem verdictAt (h : c.Rearranged σ c') (hc : c.Indexed) (hc' : c'.Indexed) (q : Query) (t : Ty) :
    Option.Rel σ.Matches (c.verdictAt q t) (c'.verdictAt q t) := by
  show Option.Rel σ.Matches ((c.overloadsOf t q.name).map (c.selectAmong q))
    ((c'.overloadsOf t q.name).map (c'.selectAmong q))
  rw [overloadsOf_eq, overloadsOf_eq, cls?_of_outline h.outline]
  cases c.cls? t with
  | none => exact .none
  | some k =>
    have hknown := h.known k q.name
    rw [Option.bind_some, Option.bind_some]
    cases hoverloads : c.overloadsAt k q.name with
    | none =>
      rw [hoverloads] at hknown
      rw [Option.not_isSome_iff_eq_none.mp (Bool.eq_false_iff.mp hknown)]
      exact .none
    | some overloads =>
      rw [hoverloads] at hknown
      obtain ⟨overloads', hoverloads'⟩ := Option.isSome_iff_exists.mp hknown
      rw [hoverloads']
      exact .some (h.selectAmong hc hc' hoverloads hoverloads' q)

theorem select (h : c.Rearranged σ c') (hc : c.Indexed) (hc' : c'.Indexed) (owner : Ty) (q : Query) :
    σ.Matches (c.select owner q) (c'.select owner q) :=
  select_related h.outline .undefined (fun _ _ => Renumbering.Matches.isOk_eq)
    (h.verdictAt hc hc' q) owner

end Rearranged

end Catalog

/-- Methods of which no two have a key in common can be declared in any order. However they are, a
call selects the same definition, or misses in the same way and shows the same definitions. -/
theorem Store.selection_ignores_order {s : Store} (hs : s.Started) {ms ms' : List Method}
    (hperm : ms.Perm ms') (hfree : ms.Pairwise fun m n => ¬ s.catalog.Overlap m n) :
    ∃ σ : Renumbering, (∀ id, id.index < s.catalog.methods.size → σ id = id) ∧
      (∀ id, (s.catalog.defineAll ms').method (σ id) = (s.catalog.defineAll ms).method id) ∧
      ∀ owner q, σ.Matches ((s.catalog.defineAll ms).select owner q)
        ((s.catalog.defineAll ms').select owner q) := by
  have hindexed := hs.indexed
  obtain ⟨σ, hσ, h⟩ := rearranged_of_perm hindexed hperm hfree
  exact ⟨σ, hσ, h.method, h.select (hindexed.defineAll ms) (hindexed.defineAll ms')⟩

/-- The two definitions of `Derived` are tied for two integers in either order. -/
theorem Store.selection_ignores_order_joined :
    let one := joins ⟨38⟩ (some (.type .int)) none
    let other := joins ⟨38⟩ none (some (.type .int))
    Store.Started ⟨derived, .empty 10⟩ ∧ [one, other].Pairwise (fun m n => ¬ derived.Overlap m n) ∧
      ∃ (σ : Renumbering) (ms : List MethodHandle), ms.Perm ([⟨216⟩, ⟨217⟩].map σ) ∧
        (derived.defineAll [other, one]).select ⟨38⟩ ⟨"join", [.int, .int], false, ⟨38⟩⟩ =
          .error (.tied ms) := by
  intro one other
  have hstarted := (reached_derived.moved (fun _ _ h => h.2.1) 10).started
  have hkeys : ∀ key ∈ methodKeys one, key ∉ methodKeys other := by decide
  have hfree : [one, other].Pairwise fun m n => ¬ derived.Overlap m n :=
    List.pairwise_pair.mpr fun ⟨_, key, hone, hother⟩ => hkeys key hone hother
  have htied : (derived.defineAll [one, other]).select ⟨38⟩ ⟨"join", [.int, .int], false, ⟨38⟩⟩ =
      .error (.tied [⟨216⟩, ⟨217⟩]) := computed_joins.2.2.2.2.2.1
  refine ⟨hstarted, hfree, ?_⟩
  generalize derived = c at hstarted hfree htied ⊢
  obtain ⟨σ, -, -, hselect⟩ := selection_ignores_order hstarted (List.Perm.swap other one []) hfree
  have hmatches := hselect ⟨38⟩ ⟨"join", [.int, .int], false, ⟨38⟩⟩
  dsimp only at hmatches
  rw [htied] at hmatches
  generalize (c.defineAll [other, one]).select ⟨38⟩ ⟨"join", [.int, .int], false, ⟨38⟩⟩ = found
    at hmatches ⊢
  cases hmatches with
  | tied hms => exact ⟨σ, _, hms, rfl⟩

end FlowTyping
