/-
# Tables: finite maps in order of insertion

A `Table` lists its entries, each key once.  Everything that is said about a
table is said through `get?`; the order of the entries is that in which the
keys first came and matters to no answer but a listing.

Main statements: `get?_insert` and `get?_alter` (what a change does to each
key), `get?_filterMap`, `mem_entries` (an entry is listed exactly when its key
answers it).
-/

namespace IrAnalysis

variable {κ α β : Type}

/-- A finite map: every key is listed once. -/
structure Table (κ α : Type) where
  entries : List (κ × α)
  keys_nodup : (entries.map Prod.fst).Nodup

namespace Table

/-- The table without entries. -/
def empty : Table κ α := ⟨[], List.nodup_nil⟩

instance : Inhabited (Table κ α) := ⟨empty⟩

def size (t : Table κ α) : Nat := t.entries.length

def isEmpty (t : Table κ α) : Bool := t.entries.isEmpty

def keys (t : Table κ α) : List κ := t.entries.map Prod.fst

/-- Keep the entries for which `f` gives a new content. -/
def filterMap (f : κ → α → Option β) (t : Table κ α) : Table κ β where
  entries := t.entries.filterMap fun e => (f e.1 e.2).map (e.1, ·)
  keys_nodup := by
    have h : ∀ l : List (κ × α),
        ((l.filterMap fun e => (f e.1 e.2).map (e.1, ·)).map Prod.fst).Sublist (l.map Prod.fst) := by
      intro l
      induction l with
      | nil => exact List.Sublist.refl _
      | cons e r ih =>
        cases hf : f e.1 e.2 with
        | none => simpa [List.filterMap_cons, hf] using ih.cons _
        | some b => simpa [List.filterMap_cons, hf] using ih.cons_cons e.1
    exact t.keys_nodup.sublist (h t.entries)

variable [DecidableEq κ]

/-- The content at a key. -/
def get? (t : Table κ α) (k : κ) : Option α := t.entries.lookup k

def contains (t : Table κ α) (k : κ) : Bool := (t.get? k).isSome

/-- Change the content at `k` by `f`, in its place, or list it last. -/
def alterEntries (k : κ) (f : Option α → α) : List (κ × α) → List (κ × α)
  | [] => [(k, f none)]
  | (j, a) :: r => if j = k then (k, f (some a)) :: r else (j, a) :: alterEntries k f r

theorem mem_keys_alterEntries {k j : κ} {f : Option α → α} {l : List (κ × α)} :
    j ∈ (alterEntries k f l).map Prod.fst ↔ j = k ∨ j ∈ l.map Prod.fst := by
  induction l with
  | nil => simp [alterEntries]
  | cons e r ih =>
    obtain ⟨i, a⟩ := e
    by_cases h : i = k
    · subst h
      simp [alterEntries]
    · simp only [alterEntries, if_neg h, List.map_cons, List.mem_cons, ih]
      constructor
      · rintro (h | h | h) <;> simp_all
      · rintro (h | h | h) <;> simp_all

theorem nodup_alterEntries {k : κ} {f : Option α → α} {l : List (κ × α)}
    (h : (l.map Prod.fst).Nodup) : ((alterEntries k f l).map Prod.fst).Nodup := by
  induction l with
  | nil => simp [alterEntries]
  | cons e r ih =>
    obtain ⟨i, a⟩ := e
    rw [List.map_cons, List.nodup_cons] at h
    by_cases hk : i = k
    · subst hk
      simpa [alterEntries] using h
    · simp only [alterEntries, if_neg hk, List.map_cons, List.nodup_cons]
      exact ⟨fun hc => (mem_keys_alterEntries.1 hc).elim hk h.1, ih h.2⟩

theorem alterEntries_of_lookup_eq_none {k : κ} {f : Option α → α} {l : List (κ × α)}
    (h : l.lookup k = none) : alterEntries k f l = l ++ [(k, f none)] := by
  induction l with
  | nil => rfl
  | cons e r ih =>
    obtain ⟨i, a⟩ := e
    by_cases hk : i = k
    · simp [hk] at h
    · have hki : (k == i) = false := beq_eq_false_iff_ne.2 (Ne.symm hk)
      rw [List.lookup_cons, hki] at h
      rw [alterEntries, if_neg hk, ih h, List.cons_append]

/-- Change the content at `k` by `f`, which is given the content so far. -/
def alter (t : Table κ α) (k : κ) (f : Option α → α) : Table κ α :=
  ⟨alterEntries k f t.entries, nodup_alterEntries t.keys_nodup⟩

/-- Put `a` at `k`, in place of any content there. -/
def insert (t : Table κ α) (k : κ) (a : α) : Table κ α := t.alter k fun _ => a

theorem lookup_alterEntries {k : κ} {f : Option α → α} (l : List (κ × α)) (j : κ) :
    (alterEntries k f l).lookup j = if j = k then some (f (l.lookup k)) else l.lookup j := by
  induction l with
  | nil =>
    by_cases h : j = k
    · simp [alterEntries, h]
    · simp [alterEntries, List.lookup_cons, h, beq_eq_false_iff_ne.2 h]
  | cons e r ih =>
    obtain ⟨i, a⟩ := e
    by_cases hk : i = k
    · subst hk
      by_cases h : j = i
      · subst h
        simp [alterEntries]
      · simp [alterEntries, List.lookup_cons, h, beq_eq_false_iff_ne.2 h]
    · have hki : (k == i) = false := beq_eq_false_iff_ne.2 (Ne.symm hk)
      simp only [alterEntries, if_neg hk, List.lookup_cons, hki]
      by_cases h : j = i
      · subst h
        simp [hk]
      · simp only [beq_eq_false_iff_ne.2 h, ih]

/-- **A change is seen at its key and nowhere else.** -/
theorem get?_alter (t : Table κ α) (k : κ) (f : Option α → α) (j : κ) :
    (t.alter k f).get? j = if j = k then some (f (t.get? k)) else t.get? j :=
  lookup_alterEntries t.entries j

theorem get?_insert (t : Table κ α) (k : κ) (a : α) (j : κ) :
    (t.insert k a).get? j = if j = k then some a else t.get? j := by
  rw [insert, get?_alter]

/-- A new key makes a table longer by one. -/
theorem size_insert {t : Table κ α} {k : κ} (h : t.get? k = none) (a : α) :
    (t.insert k a).size = t.size + 1 := by
  have hentries : (t.insert k a).entries = t.entries ++ [(k, a)] := alterEntries_of_lookup_eq_none h
  rw [size, hentries, List.length_append]
  rfl

theorem get?_empty (k : κ) : (empty : Table κ α).get? k = none := rfl

/-- **An entry is listed exactly when its key answers it.** -/
theorem mem_entries (t : Table κ α) (k : κ) (a : α) : (k, a) ∈ t.entries ↔ t.get? k = some a := by
  obtain ⟨l, h⟩ := t
  show (k, a) ∈ l ↔ l.lookup k = some a
  induction l with
  | nil => simp
  | cons e r ih =>
    obtain ⟨i, b⟩ := e
    rw [List.map_cons, List.nodup_cons] at h
    by_cases hk : k = i
    · subst hk
      have hn : (k, a) ∉ r := fun hm => h.1 (List.mem_map.2 ⟨_, hm, rfl⟩)
      simp [hn, eq_comm]
    · simp [List.lookup_cons, hk, beq_eq_false_iff_ne.2 hk, ih h.2]

theorem get?_filterMap (f : κ → α → Option β) (t : Table κ α) (k : κ) :
    (t.filterMap f).get? k = (t.get? k).bind (f k) := by
  have h : ∀ b, (t.filterMap f).get? k = some b ↔ (t.get? k).bind (f k) = some b := by
    intro b
    rw [← mem_entries, Option.bind_eq_some_iff]
    simp only [filterMap, List.mem_filterMap, Option.map_eq_some_iff, Prod.mk.injEq]
    constructor
    · rintro ⟨⟨i, a⟩, hm, c, hc, hi, hb⟩
      obtain rfl : i = k := hi
      obtain rfl : c = b := hb
      exact ⟨a, (mem_entries t i a).1 hm, hc⟩
    · rintro ⟨a, ha, hb⟩
      exact ⟨(k, a), (mem_entries t k a).2 ha, b, hb, rfl, rfl⟩
  cases hl : (t.filterMap f).get? k with
  | none =>
    cases hr : (t.get? k).bind (f k) with
    | none => rfl
    | some b => rw [(h b).2 hr] at hl; cases hl
  | some b => exact ((h b).1 hl).symm

/-- The two tables have the same keys, with contents that `same` accepts. -/
def agrees (same : α → α → Bool) (t u : Table κ α) : Bool :=
  t.size == u.size && t.entries.all fun e =>
    match u.get? e.1 with
    | some b => same e.2 b
    | none => false

end Table
end IrAnalysis
