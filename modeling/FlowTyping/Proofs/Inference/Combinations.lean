import Mathlib.Data.List.ProdSigma
import FlowTyping.Proofs.Flow.Assembly
import FlowTyping.Proofs.Inference.Choices
import FlowTyping.Proofs.Inference.Invariant

/-
  The combinations of a call

  A call with types for its receiver and its arguments has one combination for
  each type that the receiver can have and each choice of one type for every
  argument (`Resolvable.combinations`, `mem_combinations`). They depend on
  nothing but the members of these types. Any other call has no combinations
  yet (`combinations_eq_none`).
-/
namespace FlowTyping

/-- What is chosen comes from somewhere. -/
theorem exists_of_forall₂_mem {α β : Type} {R : α → β → Prop} {as : List α} {bs : List β}
    (h : List.Forall₂ R as bs) {a : α} (ha : a ∈ as) : ∃ b ∈ bs, R a b := by
  induction h with
  | nil => cases ha
  | cons hab _ ih =>
    rcases List.mem_cons.mp ha with rfl | ha
    · exact ⟨_, List.mem_cons_self, hab⟩
    · obtain ⟨b, hb, hR⟩ := ih ha
      exact ⟨b, List.mem_cons_of_mem _ hb, hR⟩

namespace Run

variable {r r' : Run} {call : CallSite} {all : List (Ty × List Ty)} {owner : Ty}
  {arguments : List Ty} {n : Node} {ns : List Node}

/-- The receiver and all arguments of a call have types. -/
def Resolvable (r : Run) (call : CallSite) : Prop :=
  ∀ n ∈ call.watched, (r.graph.typeAt n).isSome = true

instance (r : Run) (call : CallSite) : Decidable (r.Resolvable call) :=
  inferInstanceAs (Decidable (∀ n ∈ call.watched, (r.graph.typeAt n).isSome = true))

/-- The types that the receiver of a call can have. Without a receiver it is called on `self`. -/
def owners (r : Run) (call : CallSite) : List Ty :=
  match call.receiver with
  | some n => r.store.membersAt n
  | none => [call.caller]

/-- The types that each argument of a call can have. -/
def argumentTypes (r : Run) (call : CallSite) : List (List Ty) :=
  call.arguments.map r.store.membersAt

/-- `t` is a member of the type of `n`. -/
def Holds (r : Run) (t : Ty) (n : Node) : Prop :=
  ∃ u, r.graph.typeAt n = some u ∧ t ∈ r.catalog.members u

/-- The receiver can have type `owner` and the arguments the types `arguments`. A call without
receiver is one on the type of `self`. -/
structure Chooses (r : Run) (call : CallSite) (owner : Ty) (arguments : List Ty) : Prop where
  owner : match call.receiver with
    | some n => r.Holds owner n
    | none => owner = call.caller
  arguments : List.Forall₂ r.Holds arguments call.arguments

theorem mem_watched_of_receiver (h : call.receiver = some n) : n ∈ call.watched :=
  List.mem_append_left _ (by rw [h]; exact List.mem_singleton_self n)

theorem mem_watched_of_argument (h : n ∈ call.arguments) : n ∈ call.watched :=
  List.mem_append_right _ h

/-- The members of the type of a node that has one. -/
theorem map_members (h : (r.graph.typeAt n).isSome = true) :
    (r.graph.typeAt n).map r.catalog.members = some (r.store.membersAt n) := by
  obtain ⟨t, ht⟩ := Option.isSome_iff_exists.mp h
  rw [ht, Store.membersAt_of_typed ht]
  rfl

/-- The members of the types of some nodes, if all have types. -/
theorem mapM_members (h : ∀ n ∈ ns, (r.graph.typeAt n).isSome = true) :
    (ns.mapM fun n => (r.graph.typeAt n).map r.catalog.members) =
      some (ns.map r.store.membersAt) := by
  induction ns with
  | nil => rfl
  | cons n ns ih =>
    rw [List.mapM_cons, map_members (h n List.mem_cons_self),
      ih fun m hm => h m (List.mem_cons_of_mem n hm)]
    rfl

theorem mapM_members_eq_none (hn : n ∈ ns) (h : r.graph.typeAt n = none) :
    (ns.mapM fun n => (r.graph.typeAt n).map r.catalog.members) = none := by
  induction ns with
  | nil => cases hn
  | cons m ns ih =>
    rw [List.mapM_cons]
    rcases List.mem_cons.mp hn with rfl | hn
    · rw [h]
      rfl
    · rw [ih hn]
      cases (r.graph.typeAt m).map r.catalog.members <;> rfl

/-- The combinations of a call whose watched nodes all have types. -/
theorem Resolvable.combinations (h : r.Resolvable call) :
    r.combinations call = some (r.owners call ×ˢ choices (r.argumentTypes call)) := by
  have harguments := mapM_members fun n hn => h n (mem_watched_of_argument hn)
  unfold Run.combinations owners
  rw [harguments]
  cases hreceiver : call.receiver with
  | none => rfl
  | some n =>
    dsimp only
    rw [map_members (h n (mem_watched_of_receiver hreceiver))]
    rfl

theorem combinations_eq_none (h : ¬ r.Resolvable call) : r.combinations call = none := by
  unfold Resolvable at h
  push Not at h
  obtain ⟨n, hn, huntyped⟩ := h
  have hnone : r.graph.typeAt n = none := Option.not_isSome_iff_eq_none.mp huntyped
  unfold Run.combinations
  rcases List.mem_append.mp hn with hreceiver | hargument
  · rw [Option.mem_toList.mp hreceiver]
    dsimp only
    rw [hnone]
    rfl
  · rw [mapM_members_eq_none hargument hnone]
    cases call.receiver with
    | none => rfl
    | some m => cases hm : (r.graph.typeAt m).map r.catalog.members <;> simp [hm]

/-- To be chosen is to be among the types that the receiver and the arguments can have. -/
theorem chooses_iff : r.Chooses call owner arguments ↔
    owner ∈ r.owners call ∧ List.Forall₂ (· ∈ ·) arguments (r.argumentTypes call) := by
  -- to be a member at a node is to be a member of the type that the node has
  have hholds : ∀ t n, t ∈ r.store.membersAt n ↔ r.Holds t n := fun _ _ => Store.mem_membersAt
  rw [argumentTypes, List.forall₂_map_right_iff]
  simp only [hholds]
  rcases call with ⟨_, _, _ | n, _⟩
  · exact ⟨fun h => ⟨List.mem_singleton.mpr h.owner, h.arguments⟩,
      fun h => ⟨List.mem_singleton.mp h.1, h.2⟩⟩
  · exact ⟨fun h => ⟨(hholds owner n).mpr h.owner, h.arguments⟩,
      fun h => ⟨(hholds owner n).mp h.1, h.2⟩⟩

theorem mem_combinations (h : r.combinations call = some all) :
    (owner, arguments) ∈ all ↔ r.Chooses call owner arguments := by
  have hresolvable : r.Resolvable call := by
    by_contra hnot
    cases (combinations_eq_none hnot).symm.trans h
  obtain rfl : r.owners call ×ˢ choices (r.argumentTypes call) = all :=
    Option.some.inj (hresolvable.combinations.symm.trans h)
  rw [List.mem_product, mem_choices, chooses_iff]

/-- A call whose watched nodes all have types has combinations. -/
theorem exists_combinations (h : ∀ n ∈ call.watched, (r.graph.typeAt n).isSome = true) :
    ∃ all, r.combinations call = some all :=
  ⟨_, Resolvable.combinations h⟩

/-- The combinations of a call depend on the members of the types of what it watches. -/
theorem combinations_congr
    (h : ∀ n ∈ call.watched, (r'.graph.typeAt n).map r'.catalog.members =
      (r.graph.typeAt n).map r.catalog.members) :
    r'.combinations call = r.combinations call := by
  have harguments : ∀ l : List Node, (∀ n ∈ l, n ∈ call.watched) →
      (l.mapM fun n => (r'.graph.typeAt n).map r'.catalog.members) =
        l.mapM fun n => (r.graph.typeAt n).map r.catalog.members := by
    intro l hl
    induction l with
    | nil => rfl
    | cons n l ih =>
      rw [List.mapM_cons, List.mapM_cons, h n (hl n List.mem_cons_self),
        ih fun m hm => hl m (List.mem_cons_of_mem n hm)]
  unfold combinations
  rw [harguments call.arguments fun n hn => mem_watched_of_argument hn]
  cases hreceiver : call.receiver with
  | none => rfl
  | some n =>
    dsimp only
    rw [h n (mem_watched_of_receiver hreceiver)]

/-- Combinations of types that are entered are definite. -/
theorem Chooses.definite (h : r.Chooses call owner arguments) (hc : r.catalog.Sound)
    (hcaller : r.catalog.Definite call.caller)
    (hentered : ∀ n ∈ call.watched, ∀ t, r.graph.typeAt n = some t → t.index < r.catalog.size) :
    r.catalog.Definite owner ∧ ∀ u ∈ arguments, r.catalog.Definite u := by
  have hholds : ∀ n ∈ call.watched, ∀ t, r.Holds t n → r.catalog.Definite t := by
    rintro n hn t ⟨u, hu, ht⟩
    exact hc.members (hentered n hn u hu) t ht
  refine ⟨?_, fun u hu => ?_⟩
  · have ho := h.owner
    cases hreceiver : call.receiver with
    | none =>
      rw [hreceiver] at ho
      exact ho ▸ hcaller
    | some n =>
      rw [hreceiver] at ho
      exact hholds n (mem_watched_of_receiver hreceiver) owner ho
  · obtain ⟨n, hn, hu⟩ := exists_of_forall₂_mem h.arguments hu
    exact hholds n (mem_watched_of_argument hn) u hu

end Run

end FlowTyping
