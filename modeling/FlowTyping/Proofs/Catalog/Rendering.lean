import Mathlib.Data.List.Perm.Subperm
import FlowTyping.Catalog.Naming
import FlowTyping.Proofs.Catalog.Indexing

/-
  Writing a type

  The text of a type consists of pieces: signs, names with their namespaces and
  the texts of other types. `Catalog.Renders` is how it is written with a list of
  the types that are being written: a type is pushed on the list before its
  pieces are written and popped after them, and three dots are written for one
  that is on the list. No rule has a bound, so a type has a derivation exactly if
  writing it comes to an end.

  It does if namespaces come before what is in them and have names
  (`Catalog.Writable`). Then names lead to earlier types, and the list can only
  get as long as there are types, so the bound with which a text is computed is
  never reached (`Writable.renders_iff`).
-/
namespace FlowTyping

/-- Class-like shapes and constants, which have names. -/
def Shape.isNamed : Shape → Bool
  | .union _ | .provisional _ => false
  | _ => true

/-- A piece of the text of a type. -/
inductive Piece where
  | text (s : String)
  /-- The text of a type. -/
  | part (t : Ty)
  /-- The name of a type with its namespaces. -/
  | name (t : Ty)
  deriving DecidableEq

namespace Catalog

/-! ## Pieces -/

/-- A slot with its type, if that is known. -/
def slotPieces (slot : String × Option Ty) : List Piece :=
  [.text slot.1, .text ": ", match slot.2 with
    | some t => .part t
    | none => .text "?"]

/-- What a specialization shows after its name: its element type, or else its slots. -/
def bindingPieces (c : Catalog) (o : ObjectShape) : List Piece :=
  match o.template, c.elementType o with
  | none, _ => []
  | some _, some element => [.text "<", .part element, .text ">"]
  | some _, none =>
    if (c.classTable o.cls).elementSlot.isSome || o.slots.isEmpty then []
    else .text "<" :: (List.intercalate [.text ", "] (o.slots.entries.map slotPieces) ++ [.text ">"])

/-- What the text of a type consists of. -/
def pieces (c : Catalog) (t : Ty) : List Piece :=
  match c.shape t with
  | .union members =>
    .text "(" :: (List.intercalate [.text " | "] (members.map fun m => [.part m]) ++ [.text ")"])
  | .metaclass _ subject => [.part subject, .text ":Class"]
  | .pointer (some pointee) => [.text "Pointer<", .part pointee, .text ">"]
  | .object o => .name t :: c.bindingPieces o
  | _ => [.name t]

/-- Pieces one after the other. -/
def written (part name : Ty → String) : List Piece → String
  | [] => ""
  | .text s :: rest => s ++ written part name rest
  | .part t :: rest => part t ++ written part name rest
  | .name t :: rest => name t ++ written part name rest

/-- The namespace of an entry with some shape. -/
def containerIn (c : Catalog) (s : Shape) : Option Ty :=
  match s with
  | .constant _ container _ => some container
  | s => s.cls?.bind fun k => (c.classTable k).container

def containerOf (c : Catalog) (t : Ty) : Option Ty := c.containerIn (c.shape t)

/-! ## Texts without a bound -/

mutual

/-- A type is written, with a list of the types that are being written before and after it. -/
inductive Renders (c : Catalog) : List Ty → Ty → String → List Ty → Prop
  /-- It is on the list. -/
  | again {visiting : List Ty} {t : Ty} (h : c.resolve t ∈ visiting) :
      Renders c visiting t "..." visiting
  /-- It is pushed, its pieces are written, and what is on top is popped. -/
  | afresh {visiting left : List Ty} {t top : Ty} {text : String} (h : c.resolve t ∉ visiting)
      (hpieces : RendersAll c (c.resolve t :: visiting) (c.pieces (c.resolve t)) text (top :: left)) :
      Renders c visiting t text left

/-- Pieces are written one after the other. -/
inductive RendersAll (c : Catalog) : List Ty → List Piece → String → List Ty → Prop
  | nil {visiting : List Ty} : RendersAll c visiting [] "" visiting
  | text {visiting left : List Ty} {s text : String} {rest : List Piece}
      (hrest : RendersAll c visiting rest text left) :
      RendersAll c visiting (.text s :: rest) (s ++ text) left
  | part {visiting between left : List Ty} {t : Ty} {s text : String} {rest : List Piece}
      (ht : Renders c visiting t s between) (hrest : RendersAll c between rest text left) :
      RendersAll c visiting (.part t :: rest) (s ++ text) left
  | name {visiting left : List Ty} {t : Ty} {s text : String} {rest : List Piece}
      (ht : NamedAs c t s) (hrest : RendersAll c visiting rest text left) :
      RendersAll c visiting (.name t :: rest) (s ++ text) left

/-- The name of a type is written. What has none is written as a text of its own. -/
inductive NamedAs (c : Catalog) : Ty → String → Prop
  | outermost {t : Ty} {name : String} (h : c.nameAndContainer t = some (name, none)) :
      NamedAs c t name
  | atTop {t container : Ty} {name : String}
      (h : c.nameAndContainer t = some (name, some container))
      (houtermost : c.isOutermost container = true) : NamedAs c t name
  | inside {t container : Ty} {name above : String}
      (h : c.nameAndContainer t = some (name, some container))
      (houtermost : c.isOutermost container = false) (habove : NamedAs c container above) :
      NamedAs c t (above ++ "::" ++ name)
  | nameless {t : Ty} {text : String} {left : List Ty} (h : c.nameAndContainer t = none)
      (ht : Renders c [] t text left) : NamedAs c t text

end

/-- While `t` is written, `u` comes to be written, inside the texts of some types, the innermost
first, and with a list of the types that are being written. -/
inductive Comes (c : Catalog) (t : Ty) : List Ty → List Ty → Ty → Prop
  | start : Comes c t [] [] t
  | part {within visiting visiting' : List Ty} {u p : Ty} {before after : List Piece}
      {text : String} (h : Comes c t within visiting u) (hnew : c.resolve u ∉ visiting)
      (hpieces : c.pieces (c.resolve u) = before ++ .part p :: after)
      (hbefore : RendersAll c (c.resolve u :: visiting) before text visiting') :
      Comes c t (u :: within) visiting' p

variable {c : Catalog} {t u p : Ty} {part name : Ty → String} {ps : List Piece} {text : String}
  {visiting left : List Ty} {bound : Nat}

/-- What a type that stands for itself consists of comes to be written. -/
theorem Comes.inside {within visiting' : List Ty} {before after : List Piece}
    (h : c.Comes t within visiting u) (hu : c.resolve u = u) (hnew : u ∉ visiting)
    (hpieces : c.pieces u = before ++ .part p :: after)
    (hbefore : c.RendersAll (u :: visiting) before text visiting') :
    c.Comes t (u :: within) visiting' p := by
  rw [← hu] at hnew hpieces hbefore
  exact .part h hnew hpieces hbefore

/-! ## Pieces make up the text that is computed -/

theorem written_append (ps qs : List Piece) :
    written part name (ps ++ qs) = written part name ps ++ written part name qs := by
  induction ps with
  | nil => exact String.empty_append.symm
  | cons piece ps ih =>
    rw [List.cons_append]
    cases piece <;> rw [written, written, ih, String.append_assoc]

theorem written_intercalate (sep : String) (pss : List (List Piece)) :
    written part name (List.intercalate [.text sep] pss) =
      String.intercalate sep (pss.map (written part name)) := by
  induction pss with
  | nil => rw [List.intercalate_nil, List.map_nil, String.intercalate_nil, written]
  | cons ps pss ih =>
    cases pss with
    | nil => rw [List.intercalate_singleton, List.map_singleton, String.intercalate_singleton]
    | cons qs pss =>
      rw [List.intercalate_cons_cons, written_append, written_append, ih, List.map_cons,
        List.map_cons, List.map_cons, String.intercalate_cons_cons, written, written,
        String.append_empty]

theorem written_slotPieces (slot : String × Option Ty) :
    written part name (slotPieces slot) = slot.1 ++ ": " ++ (slot.2.map part).getD "?" := by
  obtain ⟨key, _ | t⟩ := slot <;>
    simp only [slotPieces, written, String.append_empty, String.append_assoc, Option.map_some,
      Option.map_none, Option.getD_some, Option.getD_none]

theorem written_bindingPieces (c : Catalog) (o : ObjectShape) :
    written part name (c.bindingPieces o) = c.bindingsText part (.object o) := by
  obtain ⟨cls, slots, generic, template⟩ := o
  unfold bindingPieces bindingsText
  cases template with
  | none => rfl
  | some template =>
    dsimp only
    cases c.elementType ⟨cls, slots, generic, some template⟩ with
    | some element => simp only [written, String.append_empty, String.append_assoc]
    | none =>
      dsimp only
      split
      · rfl
      · have hslots : (slots.entries.map slotPieces).map (written part name) =
            slots.entries.map fun slot => slot.1 ++ ": " ++ (slot.2.map part).getD "?" := by
          rw [List.map_map]
          exact List.map_congr_left fun slot _ => written_slotPieces slot
        rw [written, written_append, written_intercalate, hslots, written, written,
          String.append_empty, commaSeparated, String.append_assoc]

theorem displayWithin_succ (c : Catalog) (bound : Nat) (visiting : List Ty) (t : Ty) :
    c.displayWithin (bound + 1) visiting t =
      if c.resolve t ∈ visiting then "..."
      else written (c.displayWithin bound (c.resolve t :: visiting))
        (c.qualifiedName (c.displayWithin bound []) (c.size + 1)) (c.pieces (c.resolve t)) := by
  rw [displayWithin]
  dsimp only
  simp only [List.contains_iff_mem]
  split
  · rfl
  · unfold pieces
    cases hs : c.shape (c.resolve t) with
    | union members =>
      have hmembers : (members.map fun m => [Piece.part m]).map
          (written (c.displayWithin bound (c.resolve t :: visiting))
            (c.qualifiedName (c.displayWithin bound []) (c.size + 1))) =
          members.map (c.displayWithin bound (c.resolve t :: visiting)) := by
        rw [List.map_map]
        exact List.map_congr_left fun m _ => String.append_empty
      simp only [written, written_append, written_intercalate, hmembers, String.append_empty,
        String.append_assoc]
    | object o => rw [written, written_bindingPieces]
    | pointer pointee =>
      cases pointee <;> simp only [written, bindingsText, String.append_empty, String.append_assoc]
    | _ => simp only [written, bindingsText, String.append_empty]

/-! ## Pieces that are names or parts -/

/-- The types whose texts a text can contain. -/
def Shows (c : Catalog) (t u : Ty) : Prop :=
  match c.shape t with
  | .union members => u ∈ members
  | .metaclass _ subject => u = subject
  | .pointer pointee => pointee = some u
  | .object o => c.elementType o = some u ∨ ∃ slot ∈ o.slots.entries, slot.2 = some u
  | _ => False

theorem mem_separated {sep : String} {pss : List (List Piece)} {piece : Piece}
    (h : piece ∈ List.intercalate [.text sep] pss) : piece = .text sep ∨ ∃ ps ∈ pss, piece ∈ ps := by
  induction pss with
  | nil => cases h
  | cons ps pss ih =>
    cases pss with
    | nil =>
      rw [List.intercalate_singleton] at h
      exact .inr ⟨ps, List.mem_cons_self, h⟩
    | cons qs pss =>
      rw [List.intercalate_cons_cons, List.mem_append, List.mem_append, List.mem_singleton] at h
      rcases h with (h | h) | h
      · exact .inr ⟨ps, List.mem_cons_self, h⟩
      · exact .inl h
      · exact (ih h).imp_right fun ⟨ps, hps, h⟩ => ⟨ps, List.mem_cons_of_mem _ hps, h⟩

theorem mem_bindingPieces {o : ObjectShape} {piece : Piece} (h : piece ∈ c.bindingPieces o) :
    (∃ s, piece = .text s) ∨ ∃ u, piece = .part u ∧
      (c.elementType o = some u ∨ ∃ slot ∈ o.slots.entries, slot.2 = some u) := by
  unfold bindingPieces at h
  split at h
  · cases h
  · next element _ helement =>
    simp only [List.mem_cons, List.not_mem_nil, or_false] at h
    rcases h with rfl | rfl | rfl
    · exact .inl ⟨_, rfl⟩
    · exact .inr ⟨element, rfl, .inl helement⟩
    · exact .inl ⟨_, rfl⟩
  · split at h
    · cases h
    · simp only [List.mem_cons, List.mem_append, List.not_mem_nil, or_false] at h
      rcases h with rfl | h | rfl
      · exact .inl ⟨_, rfl⟩
      · rcases mem_separated h with rfl | ⟨ps, hps, h⟩
        · exact .inl ⟨_, rfl⟩
        · obtain ⟨⟨key, type⟩, hslot, rfl⟩ := List.mem_map.mp hps
          unfold slotPieces at h
          simp only [List.mem_cons, List.not_mem_nil, or_false] at h
          rcases h with rfl | rfl | rfl
          · exact .inl ⟨_, rfl⟩
          · exact .inl ⟨_, rfl⟩
          · cases type with
            | none => exact .inl ⟨_, rfl⟩
            | some u => exact .inr ⟨u, rfl, .inr ⟨_, hslot, rfl⟩⟩
      · exact .inl ⟨_, rfl⟩

theorem mem_pieces {piece : Piece} (h : piece ∈ c.pieces t) :
    (∃ s, piece = .text s) ∨ (∃ u, piece = .part u ∧ c.Shows t u) ∨
      piece = .name t ∧ (c.shape t).isUnion = false := by
  unfold Shows
  unfold pieces at h
  cases hs : c.shape t with
  | union members =>
    rw [hs] at h
    simp only [List.mem_cons, List.mem_append, List.not_mem_nil, or_false] at h
    rcases h with rfl | h | rfl
    · exact .inl ⟨_, rfl⟩
    · rcases mem_separated h with rfl | ⟨ps, hps, h⟩
      · exact .inl ⟨_, rfl⟩
      · obtain ⟨m, hm, rfl⟩ := List.mem_map.mp hps
        exact .inr (.inl ⟨m, List.mem_singleton.mp h, hm⟩)
    · exact .inl ⟨_, rfl⟩
  | metaclass k subject =>
    rw [hs] at h
    simp only [List.mem_cons, List.not_mem_nil, or_false] at h
    rcases h with rfl | rfl
    · exact .inr (.inl ⟨subject, rfl, rfl⟩)
    · exact .inl ⟨_, rfl⟩
  | pointer pointee =>
    rw [hs] at h
    cases pointee with
    | none => exact .inr (.inr ⟨List.mem_singleton.mp h, rfl⟩)
    | some pointee =>
      simp only [List.mem_cons, List.not_mem_nil, or_false] at h
      rcases h with rfl | rfl | rfl
      · exact .inl ⟨_, rfl⟩
      · exact .inr (.inl ⟨pointee, rfl, rfl⟩)
      · exact .inl ⟨_, rfl⟩
  | object o =>
    rw [hs] at h
    rcases List.mem_cons.mp h with rfl | h
    · exact .inr (.inr ⟨rfl, rfl⟩)
    · exact (mem_bindingPieces h).imp_right .inl
  | _ =>
    rw [hs] at h
    exact .inr (.inr ⟨List.mem_singleton.mp h, rfl⟩)

/-- What has a part is entered, since the text of nothing has none. -/
theorem lt_size_of_shows (h : c.Shows t u) : t.index < c.size := by
  refine Nat.lt_of_not_le fun hle => ?_
  unfold Shows at h
  rw [shape_of_size_le hle] at h
  cases h

theorem shows_of_part (h : .part u ∈ c.pieces t) : c.Shows t u := by
  rcases mem_pieces h with ⟨s, hs⟩ | ⟨v, hv, hshows⟩ | ⟨hname, -⟩
  · cases hs
  · cases hv
    exact hshows
  · cases hname

/-! ## Types with names -/

theorem resolve_of_isNamed (h : (c.shape t).isNamed = true) : c.resolve t = t := by
  refine resolveWithin_of_not_provisional ?_ _
  cases hs : c.shape t with
  | provisional p => rw [hs] at h; cases h
  | _ => rfl

theorem lt_size_of_isNamed (h : (c.shape t).isNamed = true) : t.index < c.size := by
  refine Nat.lt_of_not_le fun hle => ?_
  rw [shape_of_size_le hle] at h
  cases h

/-- What has a name is written with it, below its namespace if it has one. -/
theorem nameAndContainer_of_isNamed (h : (c.shape (c.resolve t)).isNamed = true) :
    ∃ name, c.nameAndContainer t = some (name, c.containerOf (c.resolve t)) := by
  unfold nameAndContainer containerOf containerIn tableOf cls? resolvedShape
  cases hs : c.shape (c.resolve t) with
  | union members => rw [hs] at h; cases h
  | provisional p => rw [hs] at h; cases h
  | _ => exact ⟨_, rfl⟩

theorem namedAs_iff_of_outermost {name : String}
    (hname : c.nameAndContainer t = some (name, none)) :
    c.NamedAs t text ↔ text = name := by
  refine ⟨fun h => ?_, fun h => h ▸ .outermost hname⟩
  cases h with
  | outermost h => cases hname.symm.trans h; rfl
  | atTop h | inside h | nameless h => cases hname.symm.trans h

theorem namedAs_iff_of_atTop {name : String}
    (hname : c.nameAndContainer t = some (name, some p))
    (htop : c.isOutermost p = true) : c.NamedAs t text ↔ text = name := by
  refine ⟨fun h => ?_, fun h => h ▸ .atTop hname htop⟩
  cases h with
  | atTop h => cases hname.symm.trans h; rfl
  | inside h hinner =>
    cases hname.symm.trans h
    cases htop.symm.trans hinner
  | outermost h | nameless h => cases hname.symm.trans h

theorem namedAs_iff_of_inside {name : String}
    (hname : c.nameAndContainer t = some (name, some p))
    (hinner : c.isOutermost p = false) :
    c.NamedAs t text ↔ ∃ above, c.NamedAs p above ∧ text = above ++ "::" ++ name := by
  refine ⟨fun h => ?_, fun ⟨above, habove, heq⟩ => heq ▸ .inside hname hinner habove⟩
  cases h with
  | inside h _ habove =>
    cases hname.symm.trans h
    exact ⟨_, habove, rfl⟩
  | atTop h htop =>
    cases hname.symm.trans h
    cases hinner.symm.trans htop
  | outermost h | nameless h => cases hname.symm.trans h

/-! ## Lists of types that are being written -/

/-- A list of types that are being written, with a bound on how deep what is written may nest. -/
structure Fits (c : Catalog) (bound : Nat) (visiting : List Ty) : Prop where
  nodup : visiting.Nodup
  entered : ∀ u ∈ visiting, u.index < c.size
  room : c.size < bound + visiting.length

/-- The list has at most as many types as there are. -/
theorem Fits.length_le (h : Fits c bound visiting) : visiting.length ≤ c.size := by
  have hsub : visiting ⊆ c.entered := fun u hu => mem_entered.mpr (h.entered u hu)
  rw [← length_entered c]
  exact (h.nodup.subperm hsub).length_le

theorem Fits.push (h : Fits c (bound + 1) visiting) (hnew : t ∉ visiting) (ht : t.index < c.size) :
    Fits c bound (t :: visiting) := by
  refine ⟨List.nodup_cons.mpr ⟨hnew, h.nodup⟩, List.forall_mem_cons.mpr ⟨ht, h.entered⟩, ?_⟩
  have := h.room
  rw [List.length_cons]
  omega

/-! ## Writing comes to an end -/

/-- Pieces are written one after the other, and the list is afterwards what it was, if this is so of
the texts among them. -/
theorem rendersAll_iff_of_parts
    (hparts : ∀ u, .part u ∈ ps → ∀ text left,
      c.Renders visiting u text left ↔ text = part u ∧ left = visiting)
    (hnames : ∀ u, .name u ∈ ps → ∀ text, c.NamedAs u text ↔ text = name u) :
    c.RendersAll visiting ps text left ↔ text = written part name ps ∧ left = visiting := by
  induction ps generalizing text left with
  | nil =>
    refine ⟨fun h => ?_, ?_⟩
    · cases h
      exact ⟨rfl, rfl⟩
    · rintro ⟨rfl, rfl⟩
      exact .nil
  | cons piece ps ih =>
    have hrest : ∀ {text left}, c.RendersAll visiting ps text left ↔
        text = written part name ps ∧ left = visiting := fun {text left} =>
      ih (fun u hu => hparts u (List.mem_cons_of_mem _ hu))
        (fun u hu => hnames u (List.mem_cons_of_mem _ hu))
    cases piece with
    | text s =>
      refine ⟨fun h => ?_, ?_⟩
      · cases h with
        | text h =>
          obtain ⟨rfl, rfl⟩ := hrest.mp h
          exact ⟨rfl, rfl⟩
      · rintro ⟨rfl, rfl⟩
        exact .text (hrest.mpr ⟨rfl, rfl⟩)
    | part u =>
      have hpart := hparts u List.mem_cons_self
      refine ⟨fun h => ?_, ?_⟩
      · cases h with
        | part hu h =>
          obtain ⟨rfl, rfl⟩ := (hpart _ _).mp hu
          obtain ⟨rfl, rfl⟩ := hrest.mp h
          exact ⟨rfl, rfl⟩
      · rintro ⟨rfl, rfl⟩
        exact .part ((hpart _ _).mpr ⟨rfl, rfl⟩) (hrest.mpr ⟨rfl, rfl⟩)
    | name u =>
      have hname := hnames u List.mem_cons_self
      refine ⟨fun h => ?_, ?_⟩
      · cases h with
        | name hu h =>
          obtain rfl := (hname _).mp hu
          obtain ⟨rfl, rfl⟩ := hrest.mp h
          exact ⟨rfl, rfl⟩
      · rintro ⟨rfl, rfl⟩
        exact .name ((hname _).mpr rfl) (hrest.mpr ⟨rfl, rfl⟩)

/-- What makes texts and names finite: what a text contains is entered, and the namespace of an
entry comes before it and has a name. -/
structure Writable (c : Catalog) : Prop where
  grounded : c.Grounded
  shown : ∀ t u, c.Shows t u → u.index < c.size
  before : ∀ t p, c.containerOf t = some p → p.index < t.index
  named : ∀ t p, c.containerOf t = some p → (c.shape p).isNamed = true

namespace Writable

/-- What a type stands for is not provisional. -/
theorem isProvisional_resolve (hc : c.Writable) (t : Ty) :
    (c.shape (c.resolve t)).isProvisional = false := by
  rcases Nat.lt_or_ge t.index c.size with hlt | hge
  · exact (hc.grounded.resolve_definite hlt).2
  · have hshape : (c.shape t).isProvisional = false := by
      rw [shape_of_size_le hge]
      rfl
    rw [resolve, resolveWithin_of_not_provisional hshape]
    exact hshape

theorem resolve_idem (hc : c.Writable) (t : Ty) : c.resolve (c.resolve t) = c.resolve t :=
  resolveWithin_of_not_provisional (hc.isProvisional_resolve t) _

/-- All types but unions stand for something that has a name. -/
theorem isNamed_of_not_union (hc : c.Writable)
    (h : (c.shape (c.resolve t)).isUnion = false) : (c.shape (c.resolve t)).isNamed = true := by
  have hprovisional := hc.isProvisional_resolve t
  cases hs : c.shape (c.resolve t) with
  | union members => rw [hs] at h; cases h
  | provisional p => rw [hs] at hprovisional; cases hprovisional
  | _ => rfl

/-- Names lead to earlier types. -/
theorem names_iff (hc : c.Writable) {render : Ty → String}
    (hnamed : (c.shape (c.resolve t)).isNamed = true) (hbound : (c.resolve t).index < bound) :
    c.NamedAs t text ↔ text = c.qualifiedName render bound t := by
  induction bound generalizing t text with
  | zero => exact absurd hbound (Nat.not_lt_zero _)
  | succ bound ih =>
    obtain ⟨name, hname⟩ := nameAndContainer_of_isNamed hnamed
    rw [qualifiedName, hname]
    cases hcontainer : c.containerOf (c.resolve t) with
    | none =>
      rw [hcontainer] at hname
      exact namedAs_iff_of_outermost hname
    | some p =>
      rw [hcontainer] at hname
      dsimp only
      cases houtermost : c.isOutermost p with
      | true => exact namedAs_iff_of_atTop hname houtermost
      | false =>
        have hlt : p.index < bound :=
          Nat.lt_of_lt_of_le (hc.before _ p hcontainer) (Nat.le_of_lt_succ hbound)
        have hnamed := hc.named _ p hcontainer
        have hresolve := resolve_of_isNamed hnamed
        rw [namedAs_iff_of_inside hname houtermost]
        simp only [ih (hresolve.symm ▸ hnamed) (hresolve.symm ▸ hlt), exists_eq_left]
        rfl

theorem names_iff_qualifiedName (hc : c.Writable) {render : Ty → String}
    (hnamed : (c.shape (c.resolve t)).isNamed = true) :
    c.NamedAs t text ↔ text = c.qualifiedName render (c.size + 1) t :=
  hc.names_iff hnamed (Nat.lt_succ_of_lt (lt_size_of_isNamed hnamed))

theorem isNamed_of_name (hc : c.Writable) (h : .name u ∈ c.pieces (c.resolve t)) :
    (c.shape (c.resolve u)).isNamed = true := by
  rcases mem_pieces h with ⟨s, hs⟩ | ⟨v, hv, -⟩ | ⟨hname, hunion⟩
  · cases hs
  · cases hv
  · cases hname
    rw [hc.resolve_idem]
    exact hc.isNamed_of_not_union hunion

/-- The pieces of a type are written if the texts inside are, and the list is afterwards what it
was. -/
theorem rendersAll_iff (hc : c.Writable) (hps : ps ⊆ c.pieces (c.resolve t))
    (part render : Ty → String) (hparts : ∀ u, .part u ∈ ps → ∀ text left,
      c.Renders visiting u text left ↔ text = part u ∧ left = visiting) :
    c.RendersAll visiting ps text left ↔
      text = written part (c.qualifiedName render (c.size + 1)) ps ∧ left = visiting := by
  refine rendersAll_iff_of_parts hparts fun u hu text => ?_
  exact hc.names_iff_qualifiedName (hc.isNamed_of_name (hps hu))

/-- So it is if texts that may nest less deeply are written. -/
theorem rendersAll_pieces_iff (hc : c.Writable)
    (hinner : ∀ {visiting u text left}, Fits c bound visiting →
      (c.Renders visiting u text left ↔ text = c.displayWithin bound visiting u ∧ left = visiting))
    (hfits : Fits c (bound + 1) visiting) (hnew : c.resolve t ∉ visiting) :
    c.RendersAll (c.resolve t :: visiting) (c.pieces (c.resolve t)) text left ↔
      text = written (c.displayWithin bound (c.resolve t :: visiting))
        (c.qualifiedName (c.displayWithin bound []) (c.size + 1)) (c.pieces (c.resolve t)) ∧
      left = c.resolve t :: visiting :=
  hc.rendersAll_iff (List.Subset.refl _) _ _ fun _ hu _ _ =>
    hinner (hfits.push hnew (lt_size_of_shows (shows_of_part hu)))

/-- Writing a type comes to an end with the text that is computed, and the list of types that are
being written is afterwards what it was. -/
theorem renders_iff (hc : c.Writable) (hfits : Fits c bound visiting) :
    c.Renders visiting t text left ↔ text = c.displayWithin bound visiting t ∧ left = visiting := by
  induction bound generalizing visiting t text left with
  | zero => exact absurd hfits.room (Nat.not_lt.mpr (Nat.zero_add _ ▸ hfits.length_le))
  | succ bound ih =>
    rw [displayWithin_succ]
    by_cases hmem : c.resolve t ∈ visiting
    · rw [if_pos hmem]
      refine ⟨fun h => ?_, ?_⟩
      · cases h with
        | again => exact ⟨rfl, rfl⟩
        | afresh hnew => exact absurd hmem hnew
      · rintro ⟨rfl, rfl⟩
        exact .again hmem
    · rw [if_neg hmem]
      refine ⟨fun h => ?_, ?_⟩
      · cases h with
        | again hold => exact absurd hold hmem
        | afresh _ h =>
          obtain ⟨rfl, hleft⟩ := (hc.rendersAll_pieces_iff ih hfits hmem).mp h
          cases hleft
          exact ⟨rfl, rfl⟩
      · rintro ⟨rfl, rfl⟩
        exact .afresh hmem ((hc.rendersAll_pieces_iff ih hfits hmem).mpr ⟨rfl, rfl⟩)

/-- The bound that texts are computed with is large enough at any time. -/
theorem fits_displayBound (hnodup : visiting.Nodup) (hentered : ∀ u ∈ visiting, u.index < c.size) :
    Fits c c.displayBound visiting := by
  refine ⟨hnodup, hentered, ?_⟩
  have hle : c.size + 2 ≤ c.displayBound := Nat.le_mul_of_pos_left _ (Nat.succ_pos _)
  omega

theorem renders_display_iff (hc : c.Writable) :
    c.Renders [] t text left ↔ text = c.display t ∧ left = [] :=
  hc.renders_iff (fits_displayBound List.nodup_nil fun _ h => absurd h List.not_mem_nil)

/-- Names come to an end. A union has none, so its text is written. -/
theorem names_iff_scopedName (hc : c.Writable) : c.NamedAs t text ↔ text = c.scopedName t := by
  cases hunion : (c.shape (c.resolve t)).isUnion with
  | false => exact hc.names_iff_qualifiedName (hc.isNamed_of_not_union hunion)
  | true =>
    have hnone : c.nameAndContainer t = none := by
      unfold nameAndContainer tableOf cls? resolvedShape
      cases hs : c.shape (c.resolve t) with
      | union members => rfl
      | _ => rw [hs] at hunion; cases hunion
    rw [scopedName, qualifiedName, hnone]
    refine ⟨fun h => ?_, fun h => .nameless hnone (hc.renders_display_iff.mpr ⟨h, rfl⟩)⟩
    cases h with
    | nameless _ ht => exact (hc.renders_display_iff.mp ht).1
    | outermost h | atTop h | inside h => cases hnone.symm.trans h

/-- Whenever a type comes to be written, the types around it are on the list, each once. -/
theorem visiting_of_comes (hc : c.Writable) {within : List Ty} (h : c.Comes t within visiting u) :
    visiting = within.map c.resolve ∧ visiting.Nodup ∧ ∀ w ∈ visiting, w.index < c.size := by
  induction h with
  | start => exact ⟨rfl, List.nodup_nil, fun _ h => absurd h List.not_mem_nil⟩
  | @part within visiting visiting' u p before after text h hnew hpieces hbefore ih =>
    obtain ⟨heq, hnodup, hentered⟩ := ih
    have hsub : before ⊆ c.pieces (c.resolve u) := fun _ hmem =>
      hpieces ▸ List.mem_append_left _ hmem
    have hpart : .part p ∈ c.pieces (c.resolve u) :=
      hpieces ▸ List.mem_append_right _ List.mem_cons_self
    have hu := lt_size_of_shows (shows_of_part hpart)
    have hpushed : (c.resolve u :: visiting).Nodup := List.nodup_cons.mpr ⟨hnew, hnodup⟩
    have hall : ∀ w ∈ c.resolve u :: visiting, w.index < c.size :=
      List.forall_mem_cons.mpr ⟨hu, hentered⟩
    -- what was written before has left the list as it was
    have hleft : visiting' = c.resolve u :: visiting :=
      ((hc.rendersAll_iff hsub _ c.display fun _ _ _ _ =>
        hc.renders_iff (fits_displayBound hpushed hall)).mp hbefore).2
    rw [hleft, List.map_cons, ← heq]
    exact ⟨rfl, hpushed, hall⟩

/-- Whenever a type comes to be written, this comes to an end, and the list is afterwards what it
was. Three dots are written if the type stands for one of those around it, and otherwise what it
consists of. -/
theorem renders_of_comes (hc : c.Writable) {within : List Ty} (h : c.Comes t within visiting u) :
    ∃ text, (∀ text' left, c.Renders visiting u text' left ↔ text' = text ∧ left = visiting) ∧
      if c.resolve u ∈ within.map c.resolve then text = "..."
      else c.RendersAll (c.resolve u :: visiting) (c.pieces (c.resolve u)) text
        (c.resolve u :: visiting) := by
  obtain ⟨rfl, hnodup, hentered⟩ := hc.visiting_of_comes h
  have hfits : Fits c (c.size + 1) (within.map c.resolve) :=
    ⟨hnodup, hentered, Nat.lt_add_right _ (Nat.lt_succ_self _)⟩
  obtain ⟨text, hrenders⟩ : ∃ text, ∀ text' left,
      c.Renders (within.map c.resolve) u text' left ↔ text' = text ∧ left = within.map c.resolve :=
    ⟨_, fun _ _ => hc.renders_iff hfits⟩
  refine ⟨text, hrenders, ?_⟩
  have hwritten := (hrenders text _).mpr ⟨rfl, rfl⟩
  split
  · next hmem =>
    cases hwritten with
    | again => rfl
    | afresh hnew => exact absurd hmem hnew
  · next hnew =>
    cases hwritten with
    | again hmem => exact absurd hmem hnew
    | afresh _ hpieces =>
      obtain ⟨-, hleft⟩ := (hc.rendersAll_pieces_iff hc.renders_iff hfits hnew).mp hpieces
      rwa [hleft] at hpieces

end Writable

end Catalog

end FlowTyping
