namespace Conform

/-- A finite map whose entries stand in the order in which their keys were first inserted. -/
abbrev Entries (κ α : Type) := List (κ × α)

namespace Entries

variable {κ α : Type} [DecidableEq κ]

def keys (m : Entries κ α) : List κ := m.map Prod.fst

def values (m : Entries κ α) : List α := m.map Prod.snd

def find? (m : Entries κ α) (k : κ) : Option α := List.lookup k m

/-- Puts a value under a key and gives the one that was there before. A new key goes to the end; the
others keep their places. -/
def exchange : Entries κ α → κ → α → Option α × Entries κ α
  | [], k, a => (none, [(k, a)])
  | (l, b) :: rest, k, a =>
    if l = k then (some b, (l, a) :: rest)
    else
      let (previous, rest) := exchange rest k a
      (previous, (l, b) :: rest)

def insert (m : Entries κ α) (k : κ) (a : α) : Entries κ α := (exchange m k a).2

def ofList (entries : List (κ × α)) : Entries κ α :=
  entries.foldl (fun m e => insert m e.1 e.2) []

theorem insert_nil (k : κ) (a : α) : insert [] k a = [(k, a)] := rfl

theorem insert_cons (l k : κ) (b a : α) (rest : Entries κ α) :
    insert ((l, b) :: rest) k a = if l = k then (l, a) :: rest else (l, b) :: insert rest k a := by
  by_cases h : l = k <;> simp [insert, exchange, h]

theorem exchange_fst (m : Entries κ α) (k : κ) (a : α) : (exchange m k a).1 = find? m k := by
  induction m with
  | nil => rfl
  | cons e rest ih =>
    obtain ⟨l, b⟩ := e
    by_cases h : l = k
    · simp [exchange, find?, h]
    · simp only [find?] at ih
      simp [exchange, find?, List.lookup_cons, h, beq_eq_false_iff_ne.2 (Ne.symm h), ih]

theorem find?_insert (m : Entries κ α) (k l : κ) (a : α) :
    find? (insert m k a) l = if k = l then some a else find? m l := by
  induction m with
  | nil =>
    by_cases h : k = l
    · simp [insert_nil, find?, h]
    · simp [insert_nil, find?, List.lookup_cons, h, beq_eq_false_iff_ne.2 (Ne.symm h)]
  | cons e rest ih =>
    obtain ⟨e, b⟩ := e
    unfold find? at ih ⊢
    by_cases he : e = k
    · subst he
      by_cases h : e = l
      · simp [insert_cons, h]
      · simp [insert_cons, List.lookup_cons, h, beq_eq_false_iff_ne.2 (Ne.symm h)]
    · by_cases h : l = e
      · subst h
        simp [insert_cons, he, Ne.symm he]
      · simp [insert_cons, he, List.lookup_cons, beq_eq_false_iff_ne.2 h, ih]

theorem mem_of_find? {m : Entries κ α} {k : κ} {a : α} (h : find? m k = some a) : (k, a) ∈ m := by
  obtain ⟨before, after, rfl, -⟩ := List.lookup_eq_some_iff.1 h
  exact List.mem_append_right before List.mem_cons_self

theorem keys_insert (m : Entries κ α) (k : κ) (a : α) :
    keys (insert m k a) = if k ∈ keys m then keys m else keys m ++ [k] := by
  induction m with
  | nil => rfl
  | cons e rest ih =>
    obtain ⟨e, b⟩ := e
    by_cases he : e = k
    · simp [insert_cons, keys, he]
    · simp only [keys] at ih
      by_cases h : k ∈ rest.map Prod.fst <;> simp [insert_cons, keys, he, Ne.symm he, ih, h]

end Entries

end Conform
