/-
# The numbers of classes, methods and fields

A symbol table is asked for items by their descriptors, again and again, and for classes,
methods and fields in any order.  Each sort has numbers of its own (`SymbolTable.part`): a table
that leads from a descriptor to its number, one that leads back, and a counter.

What the three say is one list (`Interner.Lists`): a descriptor is numbered by its place, and the
counter is the number of the next place.  A descriptor that is listed is answered by its place and
nothing changes; one that is not is listed last, and all three are told (`Interner.Lists.intern`).
The list is that of what was asked for, each at its first mention (`SymbolTable.firstMentions`), as
long as the counter does not start again.  So after any run the two tables lead back from one
another, and an item stands for exactly the descriptors for which it was the answer
(`SymbolTable.items_stand_for_descriptors`).
-/

import IrAnalysis.Violation
import IrAnalysis.Proofs.Lists
import IrAnalysis.SymbolTable
import Mathlib.Data.List.Induction

namespace IrAnalysis

namespace Interner

variable {α : Type} [DecidableEq α] {t : Interner α} {l : List α} {a : α} {i j : Nat}

/-- **The two tables lead back from one another.**  What stands for something are the numbers below
the counter, and there are as many descriptors as that. -/
structure Paired (t : Interner α) : Prop where
  numbers_iff : ∀ a i, t.numbers.get? a = some i ↔ t.items.get? i = some a
  isSome_items : ∀ i, (t.items.get? i).isSome = true ↔ i < t.next
  next_eq : t.next = t.size

/-- The list with `a` put last, unless it is a member. -/
def listed (l : List α) (a : α) : List α := if a ∈ l then l else l ++ [a]

theorem eraseDups_concat (l : List α) (a : α) :
    (l ++ [a]).eraseDups = listed l.eraseDups a := by
  rw [List.eraseDups_append, listed]
  by_cases h : a ∈ l
  · have hnone : [a].removeAll l = [] := by simp [List.removeAll, h]
    rw [if_pos (List.mem_eraseDups.2 h), hnone]
    exact List.append_nil _
  · have hone : [a].removeAll l = [a] := by simp [List.removeAll, h]
    rw [if_neg (mt List.mem_eraseDups.1 h), hone]
    rfl

/-- **The members of the list are numbered by their places**, and nothing else has a number. -/
structure Lists (t : Interner α) (l : List α) : Prop where
  numbers_iff : ∀ a i, t.numbers.get? a = some i ↔ l[i]? = some a
  items_eq : ∀ i, t.items.get? i = l[i]?
  next_eq : t.next = l.length
  size_eq : t.size = l.length

theorem lists_empty : (empty : Interner α).Lists [] := by
  refine ⟨fun a i => ?_, fun i => ?_, rfl, rfl⟩
  · rw [List.getElem?_nil]
    exact iff_of_false nofun nofun
  · rw [List.getElem?_nil]
    rfl

namespace Lists

theorem paired (h : t.Lists l) : t.Paired where
  numbers_iff a i := by rw [h.items_eq, h.numbers_iff]
  isSome_items i := by rw [h.items_eq, isSome_getElem?, h.next_eq]
  next_eq := h.next_eq.trans h.size_eq.symm

theorem get?_eq (h : t.Lists l) (i : Nat) : t.get? i = l[i]? := h.items_eq i

/-- No member is listed twice. -/
theorem eq_of_getElem? (h : t.Lists l) (hi : l[i]? = some a) (hj : l[j]? = some a) : i = j :=
  Option.some.inj (((h.numbers_iff a i).2 hi).symm.trans ((h.numbers_iff a j).2 hj))

theorem numbers_eq_none (h : t.Lists l) (ha : a ∉ l) : t.numbers.get? a = none :=
  Option.eq_none_iff_forall_ne_some.2 fun i hi =>
    ha (List.mem_of_getElem? ((h.numbers_iff a i).1 hi))

/-- A new descriptor is told to both tables, and the counter goes on to the next place. -/
theorem intern_new (h : t.Lists l) (ha : a ∉ l) (hroom : l.length + 1 < UInt32.size) :
    (t.intern a).1.Lists (l ++ [a]) := by
  have hnew := h.numbers_eq_none ha
  rw [intern_of_new hnew]
  refine ⟨fun b i => ?_, fun i => ?_, ?_, ?_⟩
  · rw [Table.get?_insert, h.next_eq, getElem?_concat_eq]
    split_ifs with hb hi hi
    · rw [hb, hi]
      exact iff_of_true rfl rfl
    · refine iff_of_false (fun he => hi (Option.some.inj he).symm) fun he => ?_
      exact ha (hb ▸ List.mem_of_getElem? he)
    · refine iff_of_false (fun he => ?_) fun he => hb (Option.some.inj he).symm
      have hlt := (List.getElem?_eq_some_iff.1 ((h.numbers_iff b i).1 he)).1
      omega
    · exact h.numbers_iff b i
  · rw [Table.get?_insert, h.next_eq, h.items_eq, getElem?_concat_eq]
  · rw [h.next_eq, following_of_lt hroom, List.length_append, List.length_singleton]
  · rw [List.length_append, ← h.size_eq]
    exact Table.size_insert hnew _

/-- **What is asked for is listed then, and answered by its place.** -/
theorem intern (h : t.Lists l) (hroom : (listed l a).length < UInt32.size) :
    (t.intern a).1.Lists (listed l a) ∧ (listed l a)[(t.intern a).2]? = some a := by
  by_cases ha : a ∈ l
  · obtain ⟨i, hi⟩ := List.mem_iff_getElem?.1 ha
    rw [intern_of_known ((h.numbers_iff a i).2 hi), listed, if_pos ha]
    exact ⟨h, hi⟩
  · rw [listed, if_neg ha] at hroom ⊢
    rw [List.length_append] at hroom
    refine ⟨h.intern_new ha hroom, ?_⟩
    rw [intern_of_new (h.numbers_eq_none ha), h.next_eq]
    exact List.getElem?_concat_length

end Lists
end Interner

/-- The sorts of items. -/
inductive ItemSort
  | type
  | method
  | field
deriving DecidableEq

/-- What tells an item from others of its sort. -/
abbrev ItemSort.Signature : ItemSort → Type
  | type => String
  | method => MethodSignature
  | field => FieldSignature

instance (s : ItemSort) : DecidableEq s.Signature :=
  match s with
  | .type => inferInstanceAs (DecidableEq String)
  | .method => inferInstanceAs (DecidableEq MethodSignature)
  | .field => inferInstanceAs (DecidableEq FieldSignature)

/-- What tells an item from all others. -/
structure Descriptor where
  sort : ItemSort
  signature : sort.Signature
deriving DecidableEq

/-- The signature of a descriptor of the given sort. -/
def Descriptor.signature? (d : Descriptor) (s : ItemSort) : Option s.Signature :=
  if h : d.sort = s then some (h ▸ d.signature) else none

theorem Descriptor.signature?_eq_some {d : Descriptor} {s : ItemSort} {a : s.Signature} :
    d.signature? s = some a ↔ d = ⟨s, a⟩ := by
  obtain ⟨s', b⟩ := d
  rw [signature?]
  split_ifs with h
  · subst h
    simp
  · refine iff_of_false nofun fun he => h ?_
    rw [he]

namespace Item

variable {s s' : ItemSort} {i j : Nat}

def sort : Item → ItemSort
  | type _ => .type
  | method _ => .method
  | field _ => .field

/-- The item of a sort with a number. -/
def numbered : ItemSort → Nat → Item
  | .type, i => type ⟨i⟩
  | .method, i => method ⟨i⟩
  | .field, i => field ⟨i⟩

theorem sort_numbered (s : ItemSort) (i : Nat) : (numbered s i).sort = s := by
  cases s <;> rfl

theorem numbered_inj : numbered s i = numbered s j ↔ i = j := by
  cases s <;> simp [numbered]

theorem numbered_ne (hs : s ≠ s') : numbered s i ≠ numbered s' j := fun he =>
  hs (by rw [← sort_numbered s i, he, sort_numbered])

theorem exists_numbered (x : Item) : ∃ s i, x = numbered s i := by
  rcases x with c | m | f
  · exact ⟨.type, c.index, rfl⟩
  · exact ⟨.method, m.index, rfl⟩
  · exact ⟨.field, f.index, rfl⟩

end Item

namespace SymbolTable

variable {t : SymbolTable} {d e : Descriptor} {x : Item} {ds later : List Descriptor}
  {xs ys : List Item} {s : ItemSort}

/-- Ask for the item that a descriptor stands for. -/
def intern (t : SymbolTable) : Descriptor → SymbolTable × Item
  | ⟨.type, name⟩ => ((t.internClass name).1, .type (t.internClass name).2)
  | ⟨.method, signature⟩ => ((t.internMethod signature).1, .method (t.internMethod signature).2)
  | ⟨.field, signature⟩ => ((t.internField signature).1, .field (t.internField signature).2)

/-- What an item stands for. -/
def descriptor? (t : SymbolTable) : Item → Option Descriptor
  | .type c => (t.className? c).map (⟨.type, ·⟩)
  | .method m => (t.method? m).map (⟨.method, ·⟩)
  | .field f => (t.field? f).map (⟨.field, ·⟩)

/-- The numbers of one sort. -/
def part (t : SymbolTable) : (s : ItemSort) → Interner s.Signature
  | .type => t.classes
  | .method => t.methods
  | .field => t.fields

/-- How many items of a sort there are. -/
def count (t : SymbolTable) (s : ItemSort) : Nat := (t.part s).size

/-- Ask for one item after the other. -/
def internAll (t : SymbolTable) : List Descriptor → SymbolTable × List Item
  | [] => (t, [])
  | d :: ds =>
    let rest := (t.intern d).1.internAll ds
    (rest.1, (t.intern d).2 :: rest.2)

/-! ### The sorts are kept apart -/

theorem descriptor?_numbered (t : SymbolTable) (s : ItemSort) (i : Nat) :
    t.descriptor? (.numbered s i) = ((t.part s).get? i).map (⟨s, ·⟩) := by
  cases s <;> rfl

theorem intern_answer (t : SymbolTable) (d : Descriptor) :
    (t.intern d).2 = .numbered d.sort ((t.part d.sort).intern d.signature).2 := by
  rcases d with ⟨_ | _ | _, signature⟩ <;> rfl

theorem part_intern_self (t : SymbolTable) (d : Descriptor) :
    (t.intern d).1.part d.sort = ((t.part d.sort).intern d.signature).1 := by
  rcases d with ⟨_ | _ | _, signature⟩ <;> rfl

theorem part_intern_of_ne (hs : s ≠ d.sort) : (t.intern d).1.part s = t.part s := by
  rcases d with ⟨_ | _ | _, signature⟩ <;> cases s <;> first | rfl | exact absurd rfl hs

theorem descriptor?_eq_some : t.descriptor? x = some d ↔
    ∃ i, x = .numbered d.sort i ∧ (t.part d.sort).get? i = some d.signature := by
  constructor
  · intro hx
    obtain ⟨s, i, rfl⟩ := x.exists_numbered
    rw [descriptor?_numbered] at hx
    obtain ⟨signature, hget, rfl⟩ := Option.map_eq_some_iff.1 hx
    exact ⟨i, rfl, hget⟩
  · rintro ⟨i, rfl, hget⟩
    rw [descriptor?_numbered, hget]
    rfl

/-! ### What was asked for -/

/-- The descriptors of a sort among `ds`, each at its first mention. -/
def firstMentions (s : ItemSort) (ds : List Descriptor) : List s.Signature :=
  (ds.filterMap (·.signature? s)).eraseDups

/-- There are fewer descriptors of each sort than there are numbers of 32 bits. -/
def Fits (ds : List Descriptor) : Prop := ∀ s, (firstMentions s ds).length < UInt32.size

/-- The item whose number is the place of the descriptor among those of its sort. -/
def placed (ds : List Descriptor) (d : Descriptor) : Item :=
  .numbered d.sort ((firstMentions d.sort ds).idxOf d.signature)

theorem mem_firstMentions {a : s.Signature} : a ∈ firstMentions s ds ↔ ⟨s, a⟩ ∈ ds := by
  rw [firstMentions, List.mem_eraseDups, List.mem_filterMap]
  constructor
  · rintro ⟨d, hd, ha⟩
    exact Descriptor.signature?_eq_some.1 ha ▸ hd
  · intro hd
    exact ⟨_, hd, Descriptor.signature?_eq_some.2 rfl⟩

/-- What is mentioned later comes after what was mentioned before. -/
theorem firstMentions_append (s : ItemSort) (ds later : List Descriptor) :
    firstMentions s ds <+: firstMentions s (ds ++ later) := by
  rw [firstMentions, firstMentions, List.filterMap_append, List.eraseDups_append]
  exact List.prefix_append _ _

theorem Fits.of_append (h : Fits (ds ++ later)) : Fits ds := fun s =>
  Nat.lt_of_le_of_lt (firstMentions_append s ds later).length_le (h s)

theorem firstMentions_concat_self (ds : List Descriptor) (d : Descriptor) :
    firstMentions d.sort (ds ++ [d]) = Interner.listed (firstMentions d.sort ds) d.signature := by
  rw [firstMentions, List.filterMap_append, List.filterMap_cons,
    Descriptor.signature?_eq_some.2 rfl, List.filterMap_nil, Interner.eraseDups_concat]
  rfl

theorem firstMentions_concat_of_ne (hs : s ≠ d.sort) (ds : List Descriptor) :
    firstMentions s (ds ++ [d]) = firstMentions s ds := by
  have hnone : d.signature? s = none := dif_neg (Ne.symm hs)
  rw [firstMentions, List.filterMap_append, List.filterMap_cons, hnone, List.filterMap_nil,
    List.append_nil]
  rfl

/-- What is mentioned later changes no place. -/
theorem placed_append (hd : d ∈ ds) (later : List Descriptor) :
    placed (ds ++ later) d = placed ds d := by
  obtain ⟨l, hl⟩ := firstMentions_append d.sort ds later
  rw [placed, ← hl, List.idxOf_append_of_mem (mem_firstMentions.2 hd)]
  rfl

/-- Different descriptors have different places. -/
theorem placed_inj (hd : d ∈ ds) : placed ds d = placed ds e ↔ d = e := by
  refine ⟨fun h => ?_, fun h => h ▸ rfl⟩
  obtain ⟨s, a⟩ := d
  obtain ⟨s', b⟩ := e
  by_cases hs : s = s'
  · subst hs
    have hplace := Item.numbered_inj.1 h
    rw [(List.idxOf_inj (mem_firstMentions.2 hd)).1 hplace]
  · exact absurd h (Item.numbered_ne hs)

/-! ### Runs -/

theorem internAll_append (t : SymbolTable) (ds later : List Descriptor) :
    t.internAll (ds ++ later) = (((t.internAll ds).1.internAll later).1,
      (t.internAll ds).2 ++ ((t.internAll ds).1.internAll later).2) := by
  induction ds generalizing t with
  | nil => rfl
  | cons d ds ih =>
    rw [List.cons_append, internAll, ih]
    rfl

/-- **What was asked for, what was answered, and the table that is left.** -/
structure Numbers (ds : List Descriptor) (xs : List Item) (t : SymbolTable) : Prop where
  lists : ∀ s, (t.part s).Lists (firstMentions s ds)
  answers_eq : xs = ds.map (placed ds)

theorem numbers_empty : Numbers [] [] empty where
  lists s := by cases s <;> exact Interner.lists_empty
  answers_eq := rfl

/-- **One more is asked for.** -/
theorem Numbers.intern (h : Numbers ds xs t) (hfit : Fits (ds ++ [d])) :
    Numbers (ds ++ [d]) (xs ++ [(t.intern d).2]) (t.intern d).1 := by
  have hlisted := firstMentions_concat_self ds d
  obtain ⟨hlists, hanswer⟩ := (h.lists d.sort).intern (a := d.signature) (hlisted ▸ hfit d.sort)
  rw [← hlisted] at hlists hanswer
  refine ⟨fun s => ?_, ?_⟩
  · by_cases hs : s = d.sort
    · subst hs
      rw [part_intern_self]
      exact hlists
    · rw [part_intern_of_ne hs, firstMentions_concat_of_ne hs]
      exact h.lists s
  · have hmem := mem_firstMentions.2 (List.mem_append_right ds (List.mem_singleton_self d))
    have hplace := hlists.eq_of_getElem? hanswer (List.getElem?_idxOf hmem)
    have hlast : (t.intern d).2 = placed (ds ++ [d]) d := by rw [intern_answer, hplace, placed]
    rw [List.map_append, List.map_singleton, ← hlast, h.answers_eq]
    exact congrArg (· ++ _) (List.map_congr_left fun e he => (placed_append he [d]).symm)

/-- **Every run numbers its descriptors.** -/
theorem numbers_internAll (hfit : Fits ds) :
    Numbers ds (empty.internAll ds).2 (empty.internAll ds).1 := by
  induction ds using List.reverseRecOn with
  | nil => exact numbers_empty
  | append_singleton ds d ih =>
    rw [internAll_append]
    exact (ih hfit.of_append).intern hfit

namespace Numbers

theorem descriptor?_numbered (h : Numbers ds xs t) (s : ItemSort) (i : Nat) :
    t.descriptor? (.numbered s i) = (firstMentions s ds)[i]?.map (⟨s, ·⟩) := by
  rw [SymbolTable.descriptor?_numbered, (h.lists s).get?_eq]

theorem count_eq (h : Numbers ds xs t) (s : ItemSort) :
    t.count s = (firstMentions s ds).length := (h.lists s).size_eq

/-- **An item stands for a descriptor exactly if it has its place.** -/
theorem descriptor?_iff (h : Numbers ds xs t) :
    t.descriptor? x = some d ↔ d ∈ ds ∧ x = placed ds d := by
  rw [descriptor?_eq_some]
  constructor
  · rintro ⟨i, rfl, hi⟩
    rw [(h.lists _).get?_eq] at hi
    have hmem := List.mem_of_getElem? hi
    refine ⟨mem_firstMentions.1 hmem, ?_⟩
    rw [placed, (h.lists _).eq_of_getElem? hi (List.getElem?_idxOf hmem)]
  · rintro ⟨hd, rfl⟩
    refine ⟨_, rfl, ?_⟩
    rw [(h.lists _).get?_eq]
    exact List.getElem?_idxOf (mem_firstMentions.2 hd)

theorem mem_zip_iff (h : Numbers ds xs t) : (d, x) ∈ ds.zip xs ↔ d ∈ ds ∧ x = placed ds d := by
  rw [h.answers_eq, ← List.map_prod_left_eq_zip, List.mem_map]
  constructor
  · rintro ⟨e, he, heq⟩
    obtain ⟨rfl, rfl⟩ := Prod.mk.inj heq
    exact ⟨he, rfl⟩
  · rintro ⟨hd, rfl⟩
    exact ⟨d, hd, rfl⟩

/-- The numbers that were given are those below the count. -/
theorem mem_iff_lt_count (h : Numbers ds xs t) (s : ItemSort) (i : Nat) :
    .numbered s i ∈ xs ↔ i < t.count s := by
  have hstands : .numbered s i ∈ xs ↔ (t.descriptor? (.numbered s i)).isSome = true := by
    rw [Option.isSome_iff_exists, h.answers_eq, List.mem_map]
    refine exists_congr fun d => ?_
    rw [h.descriptor?_iff, eq_comm]
  rw [hstands, h.descriptor?_numbered, Option.isSome_map, isSome_getElem?, h.count_eq]

end Numbers

theorem part_internAll_of_ne (hs : ∀ d ∈ later, d.sort ≠ s) :
    (t.internAll later).1.part s = t.part s := by
  induction later generalizing t with
  | nil => rfl
  | cons d later ih =>
    rw [List.forall_mem_cons] at hs
    exact (ih hs.2).trans (part_intern_of_ne (Ne.symm hs.1))

/-- **What was made before stays as it is**, and sorts that are not asked for are not touched. -/
structure KeptBy (later : List Descriptor) (t t' : SymbolTable) : Prop where
  descriptor?_eq : ∀ x d, t.descriptor? x = some d → t'.descriptor? x = some d
  untouched : ∀ s, (∀ d ∈ later, d.sort ≠ s) → t'.part s = t.part s

theorem Numbers.keptBy (h : Numbers ds xs t)
    (h' : Numbers (ds ++ later) ys (t.internAll later).1) :
    KeptBy later t (t.internAll later).1 where
  descriptor?_eq x d hx := by
    obtain ⟨hd, rfl⟩ := h.descriptor?_iff.1 hx
    exact h'.descriptor?_iff.2 ⟨List.mem_append_left later hd, (placed_append hd later).symm⟩
  untouched _ := part_internAll_of_ne

/-- **In every run equal descriptors, and no others, get the same item.**  The items of a sort are
numbered 0, 1, 2 and so on, in the order in which their descriptors were first asked for; each of
them stands for the descriptor that it was made for, and no other number stands for anything.  Both
tables of a sort say so, and its counter is the next number.  Later calls change none of this, and
leave the other sorts alone. -/
theorem items_stand_for_descriptors (ds : List Descriptor) (hfit : Fits ds) :
    let t := (empty.internAll ds).1
    let xs := (empty.internAll ds).2
    xs = ds.map (placed ds) ∧
      (∀ p ∈ ds.zip xs, ∀ q ∈ ds.zip xs, p.2 = q.2 ↔ p.1 = q.1) ∧
      (∀ s i, .numbered s i ∈ xs ↔ i < t.count s) ∧
      (∀ x d, t.descriptor? x = some d ↔ (d, x) ∈ ds.zip xs) ∧
      (∀ s i, t.descriptor? (.numbered s i) = (firstMentions s ds)[i]?.map (⟨s, ·⟩)) ∧
      (∀ s, t.count s = (firstMentions s ds).length ∧ (t.part s).Paired) ∧
      ∀ later, Fits (ds ++ later) → KeptBy later t (t.internAll later).1 := by
  intro t xs
  have hrun : Numbers ds xs t := numbers_internAll hfit
  refine ⟨hrun.answers_eq, fun p hp q hq => ?_, hrun.mem_iff_lt_count, fun x d => ?_,
    hrun.descriptor?_numbered, fun s => ⟨hrun.count_eq s, (hrun.lists s).paired⟩,
    fun later hlater => ?_⟩
  · obtain ⟨hd, hx⟩ := hrun.mem_zip_iff.1 hp
    obtain ⟨-, hy⟩ := hrun.mem_zip_iff.1 hq
    rw [hx, hy]
    exact placed_inj hd
  · rw [hrun.descriptor?_iff, hrun.mem_zip_iff]
  · have hall := numbers_internAll hlater
    rw [internAll_append] at hall
    exact hrun.keptBy hall

/-- Two classes and a method of the second one, the first class being asked for twice. -/
def twoClasses : List Descriptor :=
  [⟨.type, "A"⟩, ⟨.type, "B"⟩, ⟨.method, ⟨⟨1⟩, "f", "()V"⟩⟩, ⟨.type, "A"⟩]

theorem items_stand_for_twoClasses :
    Fits twoClasses ∧
      (empty.internAll twoClasses).2 = [.type ⟨0⟩, .type ⟨1⟩, .method ⟨0⟩, .type ⟨0⟩] := by
  have hfit : Fits twoClasses := by
    intro s
    cases s <;> decide
  exact ⟨hfit, (items_stand_for_descriptors twoClasses hfit).1.trans (by decide)⟩

end SymbolTable
end IrAnalysis
