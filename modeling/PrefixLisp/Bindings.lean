/-
  One frame of names: a finite map kept as a list sorted by name, so two frames that bind the
  same names to the same things are equal. Names are ordered by code point.

  `get?_insert` says what an insertion does to look-ups.
-/

namespace PrefixLisp

structure Bindings (α : Type) where
  entries : List (String × α)
  sorted : entries.Pairwise (·.1 < ·.1)

namespace Bindings

variable {α : Type}

def empty : Bindings α := ⟨[], .nil⟩

instance : Inhabited (Bindings α) := ⟨empty⟩

/-- The entries with one more, in order; it takes the place of an entry of that name. -/
def insertEntry (name : String) (a : α) : List (String × α) → List (String × α)
  | [] => [(name, a)]
  | e :: es =>
    if name < e.1 then (name, a) :: e :: es
    else if name = e.1 then (name, a) :: es
    else e :: insertEntry name a es

theorem mem_insertEntry {name : String} {a : α} {e : String × α} {es : List (String × α)}
    (h : e ∈ insertEntry name a es) : e = (name, a) ∨ e ∈ es := by
  induction es with
  | nil => simpa [insertEntry] using h
  | cons d ds ih =>
    unfold insertEntry at h
    split at h
    · simpa using h
    · split at h
      · rcases List.mem_cons.1 h with h | h
        · exact .inl h
        · exact .inr (List.mem_cons_of_mem _ h)
      · rcases List.mem_cons.1 h with h | h
        · exact .inr (h ▸ List.mem_cons_self)
        · exact (ih h).imp_right (List.mem_cons_of_mem _)

theorem sorted_insertEntry (name : String) (a : α) {es : List (String × α)}
    (h : es.Pairwise (·.1 < ·.1)) : (insertEntry name a es).Pairwise (·.1 < ·.1) := by
  induction es with
  | nil => exact List.pairwise_singleton _ _
  | cons d ds ih =>
    obtain ⟨hd, hds⟩ := List.pairwise_cons.1 h
    unfold insertEntry
    split
    · rename_i hlt
      refine List.pairwise_cons.2 ⟨fun e he => ?_, h⟩
      rcases List.mem_cons.1 he with he | he
      · exact he ▸ hlt
      · exact String.lt_trans hlt (hd e he)
    · rename_i hge
      split
      · rename_i heq
        exact List.pairwise_cons.2 ⟨fun e he => heq ▸ hd e he, hds⟩
      · rename_i hne
        refine List.pairwise_cons.2 ⟨fun e he => ?_, ih hds⟩
        rcases mem_insertEntry he with he | he
        · subst he
          refine String.not_le.1 fun hle => ?_
          exact hne (String.le_antisymm hle (String.not_lt.1 hge))
        · exact hd e he

/-- Bind a name, in place of what it was bound to. -/
def insert (b : Bindings α) (name : String) (a : α) : Bindings α :=
  ⟨insertEntry name a b.entries, sorted_insertEntry name a b.sorted⟩

def get? (b : Bindings α) (name : String) : Option α :=
  b.entries.lookup name

/-- The bindings of both, those of `upper` hiding those of `lower`. -/
def overlay (upper lower : Bindings α) : Bindings α :=
  upper.entries.foldl (fun b e => b.insert e.1 e.2) lower

@[simp] theorem get?_empty (name : String) : (empty : Bindings α).get? name = none := rfl

theorem lookup_insertEntry (name other : String) (a : α) (es : List (String × α)) :
    (insertEntry name a es).lookup other =
      if other = name then some a else es.lookup other := by
  induction es with
  | nil => simp only [insertEntry, List.lookup_cons, List.lookup_nil]; grind
  | cons d ds ih =>
    obtain ⟨k, v⟩ := d
    unfold insertEntry
    split
    · simp only [List.lookup_cons]; grind
    · split
      · simp only [List.lookup_cons]; grind
      · simp only [List.lookup_cons, ih]; grind

theorem get?_insert (b : Bindings α) (name other : String) (a : α) :
    (b.insert name a).get? other = if other = name then some a else b.get? other :=
  lookup_insertEntry name other a b.entries

end Bindings

end PrefixLisp
