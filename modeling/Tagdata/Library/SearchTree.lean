import Mathlib

/-!
# Multiway trees and their contexts

`SearchTree K I E` is a tree whose leaves hold lists of elements and whose branches hold
children under separator keys; every node carries a label.  A `Frame` is a branch with one
child taken out and a `Ctx` is the path of frames from that place up to the root, so that
`plug C s` is the whole tree around `s`.

A property of a tree that speaks about each node, its label and what it can see of its
children (a `Tag`) is a `LocalPred`.  `holds_plug` cuts such a property at a place: one part
speaks about the subtree, the other one about its surroundings and the subtree's tag.
-/

set_option autoImplicit false

namespace Tagdata.Library

/-- Trees with labelled nodes, elements in the leaves and separator keys in the branches. -/
inductive SearchTree (K I E : Type) where
  | leaf (info : I) (elems : List E)
  | branch (info : I) (kids : List (K × SearchTree K I E))

namespace SearchTree

variable {K I E T : Type}

/-- Induction with one hypothesis for all children of a branch. -/
@[elab_as_elim, induction_eliminator]
theorem induct {motive : SearchTree K I E → Prop}
    (leaf : ∀ info elems, motive (.leaf info elems))
    (branch : ∀ info kids, (∀ e ∈ kids, motive e.2) → motive (.branch info kids))
    (t : SearchTree K I E) : motive t :=
  @SearchTree.rec K I E motive (fun kids => ∀ e ∈ kids, motive e.2) (fun e => motive e.2)
    leaf branch (by simp) (fun _ _ hhead htail => List.forall_mem_cons.mpr ⟨hhead, htail⟩)
    (fun _ _ h => h) t

/-- The label of the root. -/
def info : SearchTree K I E → I
  | .leaf i _ => i
  | .branch i _ => i

/-- The children of the root. -/
def kids : SearchTree K I E → List (K × SearchTree K I E)
  | .leaf _ _ => []
  | .branch _ ks => ks

/-- The elements the root itself holds. -/
def elems : SearchTree K I E → List E
  | .leaf _ d => d
  | .branch _ _ => []

/-- The root is a leaf. -/
def isLeaf : SearchTree K I E → Bool
  | .leaf _ _ => true
  | .branch _ _ => false

/-- Replaces the label of the root. -/
def setInfo (i : I) : SearchTree K I E → SearchTree K I E
  | .leaf _ d => .leaf i d
  | .branch _ ks => .branch i ks

@[simp] theorem info_leaf (i : I) (d : List E) : (leaf i d : SearchTree K I E).info = i := rfl

@[simp] theorem info_branch (i : I) (ks : List (K × SearchTree K I E)) :
    (branch i ks).info = i := rfl

@[simp] theorem kids_leaf (i : I) (d : List E) : (leaf i d : SearchTree K I E).kids = [] := rfl

@[simp] theorem kids_branch (i : I) (ks : List (K × SearchTree K I E)) :
    (branch i ks).kids = ks := rfl

@[simp] theorem elems_leaf (i : I) (d : List E) : (leaf i d : SearchTree K I E).elems = d := rfl

@[simp] theorem elems_branch (i : I) (ks : List (K × SearchTree K I E)) :
    (branch i ks).elems = [] := rfl

@[simp] theorem isLeaf_leaf (i : I) (d : List E) :
    (leaf i d : SearchTree K I E).isLeaf = true := rfl

@[simp] theorem isLeaf_branch (i : I) (ks : List (K × SearchTree K I E)) :
    (branch i ks).isLeaf = false := rfl

mutual

/-- The subtrees, a tree before its children. -/
def subs : SearchTree K I E → List (SearchTree K I E)
  | .leaf i d => [.leaf i d]
  | .branch i ks => .branch i ks :: kidSubs ks

/-- The subtrees of a list of children. -/
def kidSubs : List (K × SearchTree K I E) → List (SearchTree K I E)
  | [] => []
  | (_, t) :: ks => t.subs ++ kidSubs ks

end

theorem kidSubs_eq (ks : List (K × SearchTree K I E)) :
    kidSubs ks = ks.flatMap fun e => e.2.subs := by
  induction ks with
  | nil => rfl
  | cons e ks ih => rw [kidSubs, ih, List.flatMap_cons]

@[simp] theorem subs_leaf (i : I) (d : List E) :
    (leaf i d : SearchTree K I E).subs = [leaf i d] := by rw [subs]

@[simp] theorem subs_branch (i : I) (ks : List (K × SearchTree K I E)) :
    (branch i ks).subs = branch i ks :: ks.flatMap fun e => e.2.subs := by
  rw [subs, kidSubs_eq]

theorem self_mem_subs (t : SearchTree K I E) : t ∈ t.subs := by
  cases t <;> simp

/-- A subtree of a subtree is a subtree. -/
theorem subs_trans {s t u : SearchTree K I E} (hu : u ∈ s.subs) (hs : s ∈ t.subs) :
    u ∈ t.subs := by
  induction t with
  | leaf i d =>
    obtain rfl : s = leaf i d := by simpa using hs
    exact hu
  | branch i ks ih =>
    rw [subs_branch, List.mem_cons, List.mem_flatMap] at hs
    rcases hs with rfl | ⟨e, he, hs⟩
    · exact hu
    · rw [subs_branch, List.mem_cons, List.mem_flatMap]
      exact .inr ⟨e, he, ih e he hs⟩

/-- A child is a subtree. -/
theorem kid_mem_subs {t : SearchTree K I E} {e : K × SearchTree K I E} (he : e ∈ t.kids) :
    e.2 ∈ t.subs := by
  cases t with
  | leaf i d => simp at he
  | branch i ks =>
    rw [subs_branch, List.mem_cons, List.mem_flatMap]
    exact .inr ⟨e, he, self_mem_subs _⟩

/-- The labels of all nodes. -/
def infos (t : SearchTree K I E) : List I := t.subs.map info

/-- The elements of all leaves, in order. -/
def content (t : SearchTree K I E) : List E := t.subs.flatMap elems

/-- The element lists of the leaves, in order. -/
def chunks (t : SearchTree K I E) : List (List E) := (t.subs.filter isLeaf).map elems

@[simp] theorem infos_leaf (i : I) (d : List E) :
    (leaf i d : SearchTree K I E).infos = [i] := by simp [infos]

@[simp] theorem infos_branch (i : I) (ks : List (K × SearchTree K I E)) :
    (branch i ks).infos = i :: ks.flatMap fun e => e.2.infos := by
  simp [infos, List.map_flatMap]

@[simp] theorem content_leaf (i : I) (d : List E) :
    (leaf i d : SearchTree K I E).content = d := by simp [content]

@[simp] theorem content_branch (i : I) (ks : List (K × SearchTree K I E)) :
    (branch i ks).content = ks.flatMap fun e => e.2.content := by
  simp [content, List.flatMap_assoc]

@[simp] theorem chunks_leaf (i : I) (d : List E) :
    (leaf i d : SearchTree K I E).chunks = [d] := by simp [chunks, List.filter]

@[simp] theorem chunks_branch (i : I) (ks : List (K × SearchTree K I E)) :
    (branch i ks).chunks = ks.flatMap fun e => e.2.chunks := by
  simp [chunks, List.filter_flatMap, List.map_flatMap]

/-- The content is the concatenation of the leaves. -/
theorem chunks_flatten (t : SearchTree K I E) : t.chunks.flatten = t.content := by
  induction t with
  | leaf i d => simp
  | branch i ks ih =>
    rw [chunks_branch, content_branch, List.flatten_eq_flatMap, List.flatMap_assoc]
    refine List.flatMap_congr fun e he => ?_
    rw [← ih e he, List.flatten_eq_flatMap]

/-- A tree without empty branches has a leaf. -/
theorem chunks_ne_nil {t : SearchTree K I E}
    (h : ∀ u ∈ t.subs, u.isLeaf = false → u.kids ≠ []) : t.chunks ≠ [] := by
  induction t with
  | leaf i d => simp
  | branch i ks ih =>
    cases ks with
    | nil => exact absurd rfl (h _ (self_mem_subs _) rfl)
    | cons e ks =>
      have he : e ∈ e :: ks := List.mem_cons_self
      have hmem : e.2 ∈ (branch i (e :: ks)).subs :=
        kid_mem_subs (t := branch i (e :: ks)) he
      have := ih e he fun u hu => h u (subs_trans hu hmem)
      simp [this]

/-- A child has no more labels than all children together. -/
theorem length_infos_le {ks : List (K × SearchTree K I E)} {e : K × SearchTree K I E}
    (he : e ∈ ks) : e.2.infos.length ≤ (ks.flatMap fun e => e.2.infos).length := by
  obtain ⟨l, r, rfl⟩ := List.append_of_mem he
  simp only [List.flatMap_append, List.flatMap_cons, List.length_append]
  omega

/-! ## Changing labels and elements -/

variable {J F : Type}

mutual

/-- Applies `f` to every label and `g` to the elements of every leaf. -/
def map (f : I → J) (g : List E → List F) : SearchTree K I E → SearchTree K J F
  | .leaf i d => .leaf (f i) (g d)
  | .branch i ks => .branch (f i) (mapKids f g ks)

/-- Applies `map` to a list of children. -/
def mapKids (f : I → J) (g : List E → List F) :
    List (K × SearchTree K I E) → List (K × SearchTree K J F)
  | [] => []
  | (k, t) :: ks => (k, t.map f g) :: mapKids f g ks

end

theorem mapKids_eq (f : I → J) (g : List E → List F) (ks : List (K × SearchTree K I E)) :
    mapKids f g ks = ks.map fun e => (e.1, e.2.map f g) := by
  induction ks with
  | nil => rfl
  | cons e ks ih => rw [mapKids, ih, List.map_cons]

@[simp] theorem map_leaf (f : I → J) (g : List E → List F) (i : I) (d : List E) :
    (leaf i d : SearchTree K I E).map f g = leaf (f i) (g d) := by rw [map]

@[simp] theorem map_branch (f : I → J) (g : List E → List F) (i : I)
    (ks : List (K × SearchTree K I E)) :
    (branch i ks).map f g = branch (f i) (ks.map fun e => (e.1, e.2.map f g)) := by
  rw [map, mapKids_eq]

theorem subs_map (f : I → J) (g : List E → List F) (t : SearchTree K I E) :
    (t.map f g).subs = t.subs.map fun u => u.map f g := by
  induction t with
  | leaf i d => simp
  | branch i ks ih =>
    simp only [map_branch, subs_branch, List.flatMap_map, List.map_cons, List.map_flatMap]
    congr 1
    exact List.flatMap_congr ih

theorem info_map (f : I → J) (g : List E → List F) (t : SearchTree K I E) :
    (t.map f g).info = f t.info := by
  cases t <;> simp

theorem infos_map (f : I → J) (g : List E → List F) (t : SearchTree K I E) :
    (t.map f g).infos = t.infos.map f := by
  simp only [infos, subs_map, List.map_map]
  exact List.map_congr_left fun u _ => info_map f g u

end SearchTree

/-- A branch without one of its children. -/
structure Frame (K I E : Type) where
  info : I
  pre : List (K × SearchTree K I E)
  key : K
  post : List (K × SearchTree K I E)

namespace Frame

variable {K I E : Type}

/-- The branch with the child put back. -/
def fill (f : Frame K I E) (s : SearchTree K I E) : SearchTree K I E :=
  .branch f.info (f.pre ++ (f.key, s) :: f.post)

/-- The children that stayed. -/
def sides (f : Frame K I E) : List (K × SearchTree K I E) := f.pre ++ f.post

end Frame

/-- The way from a place in a tree up to the root, innermost frame first. -/
abbrev Ctx (K I E : Type) := List (Frame K I E)

namespace SearchTree

variable {K I E T J F : Type}

/-- The whole tree around a subtree. -/
def plug : Ctx K I E → SearchTree K I E → SearchTree K I E
  | [], s => s
  | f :: C, s => plug C (f.fill s)

@[simp] theorem plug_nil (s : SearchTree K I E) : plug [] s = s := rfl

@[simp] theorem plug_cons (f : Frame K I E) (C : Ctx K I E) (s : SearchTree K I E) :
    plug (f :: C) s = plug C (f.fill s) := rfl

theorem plug_append (C D : Ctx K I E) (s : SearchTree K I E) :
    plug (C ++ D) s = plug D (plug C s) := by
  induction C generalizing s with
  | nil => rfl
  | cons f C ih => simp [ih]

theorem plug_map (f : I → J) (g : List E → List F) (C : Ctx K I E) (s : SearchTree K I E) :
    (plug C s).map f g =
      plug (C.map fun fr => ⟨f fr.info, fr.pre.map fun e => (e.1, e.2.map f g), fr.key,
        fr.post.map fun e => (e.1, e.2.map f g)⟩) (s.map f g) := by
  induction C generalizing s with
  | nil => rfl
  | cons fr C ih => simp [ih, Frame.fill]

/-- The labels around a place. -/
def ctxInfos (C : Ctx K I E) : List I :=
  C.flatMap fun f => f.info :: f.sides.flatMap fun e => e.2.infos

@[simp] theorem ctxInfos_nil : ctxInfos ([] : Ctx K I E) = [] := rfl

@[simp] theorem ctxInfos_cons (f : Frame K I E) (C : Ctx K I E) :
    ctxInfos (f :: C) = f.info :: (f.sides.flatMap fun e => e.2.infos) ++ ctxInfos C := by
  simp [ctxInfos]

/-- The labels of a tree are those around a place and those of the subtree there. -/
theorem infos_plug (C : Ctx K I E) (s : SearchTree K I E) :
    (plug C s).infos.Perm (ctxInfos C ++ s.infos) := by
  induction C generalizing s with
  | nil => simp
  | cons f C ih =>
    refine (ih (f.fill s)).trans ?_
    have hfill : (f.fill s).infos.Perm
        ((f.info :: f.sides.flatMap fun e => e.2.infos) ++ s.infos) := by
      simp only [Frame.fill, Frame.sides, infos_branch, List.flatMap_append, List.flatMap_cons,
        List.cons_append, List.append_assoc]
      exact (List.perm_append_comm.append_left _).cons _
    rw [ctxInfos_cons]
    refine (hfill.append_left _).trans ?_
    rw [← List.append_assoc]
    exact List.perm_append_comm.append_right _

/-- The content left of a place. -/
def before : Ctx K I E → List E
  | [] => []
  | f :: C => before C ++ f.pre.flatMap fun e => e.2.content

/-- The content right of a place. -/
def after : Ctx K I E → List E
  | [] => []
  | f :: C => (f.post.flatMap fun e => e.2.content) ++ after C

theorem content_plug (C : Ctx K I E) (s : SearchTree K I E) :
    (plug C s).content = before C ++ s.content ++ after C := by
  induction C generalizing s with
  | nil => simp [before, after]
  | cons f C ih => simp [ih, before, after, Frame.fill]

/-- The leaves left of a place. -/
def chunksBefore : Ctx K I E → List (List E)
  | [] => []
  | f :: C => chunksBefore C ++ f.pre.flatMap fun e => e.2.chunks

/-- The leaves right of a place. -/
def chunksAfter : Ctx K I E → List (List E)
  | [] => []
  | f :: C => (f.post.flatMap fun e => e.2.chunks) ++ chunksAfter C

theorem chunks_plug (C : Ctx K I E) (s : SearchTree K I E) :
    (plug C s).chunks = chunksBefore C ++ s.chunks ++ chunksAfter C := by
  induction C generalizing s with
  | nil => simp [chunksBefore, chunksAfter]
  | cons f C ih => simp [ih, chunksBefore, chunksAfter, Frame.fill]

theorem chunksAfter_flatten (C : Ctx K I E) : (chunksAfter C).flatten = after C := by
  induction C with
  | nil => rfl
  | cons f C ih =>
    rw [chunksAfter, after, List.flatten_append, ih, List.flatten_eq_flatMap, List.flatMap_assoc]
    congr 1
    refine List.flatMap_congr fun e _ => ?_
    rw [← chunks_flatten, List.flatten_eq_flatMap]

theorem chunksBefore_flatten (C : Ctx K I E) : (chunksBefore C).flatten = before C := by
  induction C with
  | nil => rfl
  | cons f C ih =>
    rw [chunksBefore, before, List.flatten_append, ih, List.flatten_eq_flatMap, List.flatMap_assoc]
    congr 1
    refine List.flatMap_congr fun e _ => ?_
    rw [← chunks_flatten, List.flatten_eq_flatMap]

theorem isLeaf_plug_cons (f : Frame K I E) (C : Ctx K I E) (s : SearchTree K I E) :
    (plug (f :: C) s).isLeaf = false := by
  induction C generalizing f s with
  | nil => rfl
  | cons g C ih => exact ih g (f.fill s)

/-- What stands at a place is a subtree. -/
theorem mem_subs_plug (C : Ctx K I E) (s : SearchTree K I E) : s ∈ (plug C s).subs := by
  induction C generalizing s with
  | nil => exact self_mem_subs s
  | cons f C ih =>
    refine subs_trans ?_ (ih (f.fill s))
    exact kid_mem_subs (e := (f.key, s)) (by simp [Frame.fill])

/-- Every subtree stands at some place. -/
theorem exists_plug {s t : SearchTree K I E} (hs : s ∈ t.subs) : ∃ C, t = plug C s := by
  induction t with
  | leaf i d =>
    obtain rfl : s = leaf i d := by simpa using hs
    exact ⟨[], rfl⟩
  | branch i ks ih =>
    rw [subs_branch, List.mem_cons, List.mem_flatMap] at hs
    rcases hs with rfl | ⟨e, he, hs⟩
    · exact ⟨[], rfl⟩
    · obtain ⟨C, hC⟩ := ih e he hs
      obtain ⟨pre, post, rfl⟩ := List.append_of_mem he
      exact ⟨C ++ [⟨i, pre, e.1, post⟩], by simp [plug_append, ← hC, Frame.fill]⟩

/-! ## Local properties -/

/-- What a node sees of a child: of a leaf its label and elements, of a branch its label
and separator keys. -/
structure Tagging (K I E T : Type) where
  leaf : I → List E → T
  branch : I → List K → T

/-- A property of a node, its label, and what it sees of its children. -/
structure LocalPred (K I E T : Type) where
  onLeaf : I → List E → Prop
  onBranch : I → List (K × T) → Prop

variable (τ : Tagging K I E T)

/-- The tag of a tree. -/
def tag : SearchTree K I E → T
  | .leaf i d => τ.leaf i d
  | .branch i ks => τ.branch i (ks.map Prod.fst)

/-- Children with their tags. -/
def tags (ks : List (K × SearchTree K I E)) : List (K × T) := ks.map fun e => (e.1, tag τ e.2)

@[simp] theorem tag_leaf (i : I) (d : List E) :
    tag τ (leaf i d : SearchTree K I E) = τ.leaf i d := rfl

@[simp] theorem tag_branch (i : I) (ks : List (K × SearchTree K I E)) :
    tag τ (branch i ks) = τ.branch i (ks.map Prod.fst) := rfl

@[simp] theorem tags_nil : tags τ ([] : List (K × SearchTree K I E)) = [] := rfl

@[simp] theorem tags_cons (e : K × SearchTree K I E) (ks : List (K × SearchTree K I E)) :
    tags τ (e :: ks) = (e.1, tag τ e.2) :: tags τ ks := rfl

@[simp] theorem tags_append (ks js : List (K × SearchTree K I E)) :
    tags τ (ks ++ js) = tags τ ks ++ tags τ js := List.map_append

/-- The property at the root of a tree. -/
def LocalPred.atRoot (p : LocalPred K I E T) : SearchTree K I E → Prop
  | .leaf i d => p.onLeaf i d
  | .branch i ks => p.onBranch i (tags τ ks)

/-- The property at every node of a tree. -/
def Holds (p : LocalPred K I E T) (t : SearchTree K I E) : Prop :=
  ∀ u ∈ t.subs, p.atRoot τ u

/-- The property at every node around a place, for a subtree with the given tag. -/
def Around (p : LocalPred K I E T) : Ctx K I E → T → Prop
  | [], _ => True
  | f :: C, x =>
      p.onBranch f.info (tags τ f.pre ++ (f.key, x) :: tags τ f.post) ∧
      (∀ e ∈ f.sides, Holds τ p e.2) ∧
      Around p C (τ.branch f.info (f.pre.map Prod.fst ++ f.key :: f.post.map Prod.fst))

variable {τ} {p q : LocalPred K I E T}

@[simp] theorem holds_leaf (i : I) (d : List E) :
    Holds τ p (leaf i d : SearchTree K I E) ↔ p.onLeaf i d := by
  simp [Holds, LocalPred.atRoot]

@[simp] theorem holds_branch (i : I) (ks : List (K × SearchTree K I E)) :
    Holds τ p (branch i ks) ↔ p.onBranch i (tags τ ks) ∧ ∀ e ∈ ks, Holds τ p e.2 := by
  simp only [Holds, subs_branch, List.mem_cons, List.mem_flatMap, forall_eq_or_imp]
  refine and_congr_right fun _ => ⟨fun h e he u hu => h u ⟨e, he, hu⟩, ?_⟩
  rintro h u ⟨e, he, hu⟩
  exact h e he u hu

@[simp] theorem around_nil (x : T) : Around τ p ([] : Ctx K I E) x := trivial

theorem around_cons (f : Frame K I E) (C : Ctx K I E) (x : T) :
    Around τ p (f :: C) x ↔
      p.onBranch f.info (tags τ f.pre ++ (f.key, x) :: tags τ f.post) ∧
      (∀ e ∈ f.sides, Holds τ p e.2) ∧
      Around τ p C (τ.branch f.info (f.pre.map Prod.fst ++ f.key :: f.post.map Prod.fst)) :=
  Iff.rfl

/-- A local property of a tree, cut at a place. -/
theorem holds_plug (C : Ctx K I E) (s : SearchTree K I E) :
    Holds τ p (plug C s) ↔ Around τ p C (tag τ s) ∧ Holds τ p s := by
  induction C generalizing s with
  | nil => simp
  | cons f C ih =>
    rw [plug_cons, ih, around_cons]
    simp only [Frame.fill, Frame.sides, holds_branch, tags_append, tags_cons, tag_branch,
      List.map_append, List.map_cons, List.forall_mem_append, List.forall_mem_cons]
    tauto

/-- A property that is kept at every label is kept by the tree. -/
theorem Holds.mono {t : SearchTree K I E} (h : Holds τ p t)
    (hleaf : ∀ i ∈ t.infos, ∀ d, p.onLeaf i d → q.onLeaf i d)
    (hbranch : ∀ i ∈ t.infos, ∀ ks, p.onBranch i ks → q.onBranch i ks) : Holds τ q t := by
  intro u hu
  have hi : u.info ∈ t.infos := List.mem_map_of_mem hu
  have hp := h u hu
  cases u with
  | leaf i d => exact hleaf i hi d hp
  | branch i ks => exact hbranch i hi _ hp

/-- A property that is kept at every label around a place is kept there. -/
theorem Around.mono {C : Ctx K I E} {x : T} (h : Around τ p C x)
    (hleaf : ∀ i ∈ ctxInfos C, ∀ d, p.onLeaf i d → q.onLeaf i d)
    (hbranch : ∀ i ∈ ctxInfos C, ∀ ks, p.onBranch i ks → q.onBranch i ks) : Around τ q C x := by
  induction C generalizing x with
  | nil => trivial
  | cons f C ih =>
    obtain ⟨hf, hsides, hC⟩ := h
    simp only [ctxInfos_cons, List.mem_append, List.mem_cons, List.mem_flatMap] at hleaf hbranch
    refine ⟨hbranch _ (.inl (.inl rfl)) _ hf, fun e he => (hsides e he).mono ?_ ?_, ih hC ?_ ?_⟩
    · exact fun i hi => hleaf i (.inl (.inr ⟨e, he, hi⟩))
    · exact fun i hi => hbranch i (.inl (.inr ⟨e, he, hi⟩))
    · exact fun i hi => hleaf i (.inr hi)
    · exact fun i hi => hbranch i (.inr hi)

end SearchTree

end Tagdata.Library
