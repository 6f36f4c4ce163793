import Conform.Proofs.WellFormed

namespace Conform

namespace Entries

variable {κ ι α : Type}

def LastUnder (es : List (κ × α)) (k : κ) (a : α) : Prop :=
  ∃ before after, es = before ++ (k, a) :: after ∧ k ∉ after.map Prod.fst

def rename (f : κ → ι) (es : List (κ × α)) : List (ι × α) := es.map fun e => (f e.1, e.2)

theorem rename_cons (f : κ → ι) (e : κ × α) (es : List (κ × α)) :
    rename f (e :: es) = (f e.1, e.2) :: rename f es :=
  rfl

variable [DecidableEq κ]

/-- The map holds, for each key that was inserted, the value that was inserted last, and its keys
stand in the order in which they were inserted first. -/
structure Tabulates (m : Entries κ α) (es : List (κ × α)) : Prop where
  nodup : (keys m).Nodup
  mem_keys_iff : ∀ k, k ∈ keys m ↔ k ∈ es.map Prod.fst
  ordered : (keys m).Pairwise fun k l => (es.map Prod.fst).idxOf k < (es.map Prod.fst).idxOf l
  find?_eq_some_iff : ∀ k a, find? m k = some a ↔ LastUnder es k a
  find?_eq_none_iff : ∀ k, find? m k = none ↔ k ∉ es.map Prod.fst

theorem find?_ofList_eq_some_iff {es : List (κ × α)} {k : κ} {a : α} :
    find? (ofList es) k = some a ↔ LastUnder es k a := by
  constructor
  · intro h
    rw [find?_ofList, find?, List.lookup_eq_some_iff] at h
    obtain ⟨after, before, hes, hafter⟩ := h
    refine ⟨before.reverse, after.reverse, ?_, ?_⟩
    · simpa using congrArg List.reverse hes
    · rw [List.map_reverse, List.mem_reverse, List.mem_map]
      rintro ⟨e, he, rfl⟩
      simpa using hafter e he
  · rintro ⟨before, after, rfl, hafter⟩
    exact find?_ofList_of_last hafter

theorem mem_keys_ofList {es : List (κ × α)} {k : κ} :
    k ∈ keys (ofList es) ↔ k ∈ es.map Prod.fst := by
  rw [keys_ofList, List.mem_eraseDups]

/-- A key that comes later for the first time goes to the end of the keys. -/
theorem ordered_ofList (es : List (κ × α)) : (keys (ofList es)).Pairwise fun k l =>
    (es.map Prod.fst).idxOf k < (es.map Prod.fst).idxOf l := by
  induction es using List.reverseRecOn with
  | nil => exact .nil
  | append_singleton es e ih =>
    have hearlier : ∀ {k}, k ∈ keys (ofList es) →
        ((es ++ [e]).map Prod.fst).idxOf k = (es.map Prod.fst).idxOf k := by
      intro k hk
      rw [List.map_append, List.idxOf_append_of_mem (mem_keys_ofList.1 hk)]
    have hpairwise : (keys (ofList es)).Pairwise fun k l =>
        ((es ++ [e]).map Prod.fst).idxOf k < ((es ++ [e]).map Prod.fst).idxOf l := by
      refine ih.imp_of_mem fun hk hl h => ?_
      rwa [hearlier hk, hearlier hl]
    rw [ofList_concat, keys_insert]
    by_cases he : e.1 ∈ keys (ofList es)
    · rwa [if_pos he]
    · rw [if_neg he, List.pairwise_append]
      refine ⟨hpairwise, List.pairwise_singleton _ _, fun k hk l hl => ?_⟩
      rw [List.mem_singleton.1 hl, hearlier hk, List.map_append,
        List.idxOf_append_of_notMem (mt mem_keys_ofList.2 he)]
      exact Nat.lt_of_lt_of_le (List.idxOf_lt_length_of_mem (mem_keys_ofList.1 hk))
        (Nat.le_add_right _ _)

theorem tabulates_ofList (es : List (κ × α)) : Tabulates (ofList es) es where
  nodup := (ordered_ofList es).imp fun h he => absurd h (by rw [he]; exact Nat.lt_irrefl _)
  mem_keys_iff _ := mem_keys_ofList
  ordered := ordered_ofList es
  find?_eq_some_iff _ _ := find?_ofList_eq_some_iff
  find?_eq_none_iff _ := by rw [find?_eq_none_iff, mem_keys_ofList]

section Renaming

variable [DecidableEq ι] {f : κ → ι} {m : Entries κ α} {k : κ}

theorem rename_insert (h : ∀ l ∈ keys m, f l = f k → l = k) (a : α) :
    rename f (insert m k a) = insert (rename f m) (f k) a := by
  induction m with
  | nil => rfl
  | cons e rest ih =>
    obtain ⟨l, b⟩ := e
    obtain ⟨hl, hrest⟩ := List.forall_mem_cons.1 h
    rw [insert_cons, rename_cons, insert_cons]
    by_cases he : l = k
    · rw [if_pos he, if_pos (congrArg f he), rename_cons]
    · rw [if_neg he, if_neg (mt hl he), rename_cons, ih hrest]

theorem find?_rename (h : ∀ l ∈ keys m, f l = f k → l = k) :
    find? (rename f m) (f k) = find? m k := by
  induction m with
  | nil => rfl
  | cons e rest ih =>
    obtain ⟨hl, hrest⟩ := List.forall_mem_cons.1 h
    have hrest := ih hrest
    rw [find?, find?] at hrest ⊢
    rw [rename_cons, List.lookup_cons, List.lookup_cons]
    by_cases he : k = e.1
    · simp [he]
    · rw [beq_eq_false_iff_ne.2 he, beq_eq_false_iff_ne.2 fun hf => he (hl hf.symm).symm]
      exact hrest

theorem rename_ofList {es : List (κ × α)}
    (h : ∀ k ∈ es.map Prod.fst, ∀ l ∈ es.map Prod.fst, f l = f k → l = k) :
    rename f (ofList es) = ofList (rename f es) := by
  induction es using List.reverseRecOn with
  | nil => rfl
  | append_singleton es e ih =>
    have hearlier : ∀ {k}, k ∈ es.map Prod.fst → k ∈ (es ++ [e]).map Prod.fst := fun hk => by
      rw [List.map_append]
      exact List.mem_append_left _ hk
    have hlast : ∀ l ∈ keys (ofList es), f l = f e.1 → l = e.1 := fun l hl =>
      h e.1 (by simp) l (hearlier (mem_keys_ofList.1 hl))
    rw [ofList_concat, rename_insert hlast, ih fun k hk l hl => h k (hearlier hk) l (hearlier hl),
      ← ofList_concat (rename f es) (f e.1, e.2), rename, rename, List.map_append,
      List.map_singleton]

end Renaming

end Entries

/-- The symbol was created in a run that created symbols with these descriptions, one by one. -/
def Symbol.IsAmong (created : List (Option String)) (s : Symbol) : Prop :=
  created[s.serial]? = some s.description

theorem Symbol.IsAmong.eq_of_serial_eq {created : List (Option String)} {s t : Symbol}
    (hs : s.IsAmong created) (ht : t.IsAmong created) (h : s.serial = t.serial) : s = t := by
  rw [IsAmong] at hs ht
  rw [h, ht, Option.some.injEq] at hs
  cases s
  cases t
  cases h
  cases hs
  rfl

/-- What a program does to an object that it builds. An exchange also gives the previous value. -/
inductive Edit (α : Type) where
  | insert (key : String) (a : α)
  | exchange (key : String) (a : α)
  | insertSymbol (key : Symbol) (a : α)

namespace Edit

variable {α : Type}

def apply (o : ObjectOf α) : Edit α → ObjectOf α
  | .insert key a => o.insert key a
  | .exchange key a => (o.exchange key a).2
  | .insertSymbol key a => o.insertSymbol key a

def property? : Edit α → Option (String × α)
  | .insert key a => some (key, a)
  | .exchange key a => some (key, a)
  | .insertSymbol _ _ => none

def symbolProperty? : Edit α → Option (Symbol × α)
  | .insertSymbol key a => some (key, a)
  | _ => none

/-- An edit changes one of the two tables and leaves the other one as it is. -/
theorem apply_cases (o : ObjectOf α) (e : Edit α) :
    (∃ key a, e.property? = some (key, a) ∧ e.symbolProperty? = none ∧
        e.apply o = { o with properties := Entries.insert o.properties key a }) ∨
      ∃ key a, e.property? = none ∧ e.symbolProperty? = some (key, a) ∧
        e.apply o = { o with symbols := Entries.insert o.symbols key a } := by
  cases e with
  | insert key a | exchange key a => exact .inl ⟨key, a, rfl, rfl, rfl⟩
  | insertSymbol key a => exact .inr ⟨key, a, rfl, rfl, rfl⟩

end Edit

namespace ObjectOf

variable {α : Type}

def build (entries : List (String × α)) (edits : List (Edit α)) : ObjectOf α :=
  edits.foldl Edit.apply (.ofList entries)

def inserted (entries : List (String × α)) (edits : List (Edit α)) : List (String × α) :=
  entries ++ edits.filterMap Edit.property?

def insertedSymbols (edits : List (Edit α)) : List (Symbol × α) :=
  edits.filterMap Edit.symbolProperty?

theorem build_concat (entries : List (String × α)) (edits : List (Edit α)) (e : Edit α) :
    build entries (edits ++ [e]) = e.apply (build entries edits) := by
  rw [build, List.foldl_append, List.foldl_cons, List.foldl_nil, build]

/-- The two tables are made of the insertions into them. -/
theorem tables_build (entries : List (String × α)) (edits : List (Edit α)) :
    (build entries edits).properties = Entries.ofList (inserted entries edits) ∧
      (build entries edits).symbols = Entries.ofList (insertedSymbols edits) := by
  induction edits using List.reverseRecOn with
  | nil =>
    rw [inserted, List.filterMap_nil, List.append_nil]
    exact ⟨rfl, rfl⟩
  | append_singleton edits e ih =>
    obtain ⟨hproperties, hsymbols⟩ := ih
    rw [build_concat, inserted, insertedSymbols, List.filterMap_append, List.filterMap_append,
      ← List.append_assoc]
    rcases e.apply_cases (build entries edits) with ⟨key, a, hp, hs, he⟩ | ⟨key, a, hp, hs, he⟩
    · rw [he, List.filterMap_cons_some hp, List.filterMap_cons_none hs, List.filterMap_nil,
        List.filterMap_nil, List.append_nil, Entries.ofList_concat]
      exact ⟨congrArg (Entries.insert · key a) hproperties, hsymbols⟩
    · rw [he, List.filterMap_cons_none hp, List.filterMap_cons_some hs, List.filterMap_nil,
        List.filterMap_nil, List.append_nil, Entries.ofList_concat]
      exact ⟨hproperties, congrArg (Entries.insert · key a) hsymbols⟩

/-- All that is read under string keys is one finite map, of the values inserted last, in the order
of the first insertions. -/
structure Keeps (o : ObjectOf α) (es : List (String × α)) : Prop where
  nodup_keys : o.keys.Nodup
  mem_keys_iff : ∀ key, key ∈ o.keys ↔ key ∈ es.map Prod.fst
  ordered_keys : o.keys.Pairwise fun k l => (es.map Prod.fst).idxOf k < (es.map Prod.fst).idxOf l
  get?_eq_some_iff : ∀ key a, o.get? key = some a ↔ Entries.LastUnder es key a
  get?_eq_none_iff : ∀ key, o.get? key = none ↔ key ∉ es.map Prod.fst
  contains_iff : ∀ key, o.contains key = true ↔ key ∈ o.keys
  keys_eq : o.properties.map Prod.fst = o.keys
  mem_properties_iff : ∀ e, e ∈ o.properties ↔ o.get? e.1 = some e.2
  size_eq : o.size = o.keys.length
  isEmpty_iff : o.isEmpty = true ↔ o.keys = []

theorem keeps_of_tabulates {o : ObjectOf α} {es : List (String × α)}
    (h : Entries.Tabulates o.properties es) : o.Keeps es where
  nodup_keys := h.nodup
  mem_keys_iff := h.mem_keys_iff
  ordered_keys := h.ordered
  get?_eq_some_iff := h.find?_eq_some_iff
  get?_eq_none_iff := h.find?_eq_none_iff
  contains_iff key := by
    rw [contains, Option.isSome_iff_ne_none, ne_eq, get?, Entries.find?_eq_none_iff, not_not, keys]
  keys_eq := rfl
  mem_properties_iff _ := (Entries.find?_eq_some_iff h.nodup).symm
  size_eq := (List.length_map Prod.fst).symm
  isEmpty_iff := by rw [isEmpty, List.isEmpty_iff, keys, Entries.keys, List.map_eq_nil_iff]

/-- Edits of the other table do not matter to a table. -/
theorem tables_build_filter (entries : List (String × α)) (edits : List (Edit α)) :
    (build entries (edits.filter (·.symbolProperty?.isNone))).properties =
        (build entries edits).properties ∧
      (build [] (edits.filter (·.property?.isNone))).symbols = (build entries edits).symbols := by
  have hproperties : (edits.filter (·.symbolProperty?.isNone)).filterMap Edit.property? =
      edits.filterMap Edit.property? := by
    rw [List.filterMap_filter]
    exact congrArg (List.filterMap · edits) (funext fun e => by cases e <;> rfl)
  have hsymbols : (edits.filter (·.property?.isNone)).filterMap Edit.symbolProperty? =
      edits.filterMap Edit.symbolProperty? := by
    rw [List.filterMap_filter]
    exact congrArg (List.filterMap · edits) (funext fun e => by cases e <;> rfl)
  rw [(tables_build _ _).1, (tables_build _ _).1, (tables_build _ _).2, (tables_build _ _).2,
    inserted, inserted, insertedSymbols, insertedSymbols, hproperties, hsymbols]
  exact ⟨rfl, rfl⟩

end ObjectOf

open ObjectOf in
/-- After any history, an object is the finite map of what was inserted under its string keys, and
apart from it that of its symbols. -/
theorem build_keeps_history {α : Type} (entries : List (String × α)) (edits : List (Edit α))
    (created : List (Option String))
    (hcreated : ∀ e ∈ insertedSymbols edits, e.1.IsAmong created) :
    (build entries edits).Keeps (inserted entries edits) ∧
      (∀ key a, (build entries edits).exchange key a =
        ((build entries edits).get? key, build entries (edits ++ [.exchange key a]))) ∧
      Entries.Tabulates (Entries.rename Symbol.serial (build entries edits).symbols)
        (Entries.rename Symbol.serial (insertedSymbols edits)) ∧
      (∀ s, s.IsAmong created → (build entries edits).symbol? s =
        Entries.find? (Entries.rename Symbol.serial (build entries edits).symbols) s.serial) ∧
      (build entries (edits.filter (·.symbolProperty?.isNone))).properties =
        (build entries edits).properties ∧
      (build [] (edits.filter (·.property?.isNone))).symbols = (build entries edits).symbols := by
  obtain ⟨hproperties, hsymbols⟩ := tables_build entries edits
  have hidentity : ∀ s, s.IsAmong created → ∀ t ∈ (insertedSymbols edits).map Prod.fst,
      t.serial = s.serial → t = s := by
    intro s hs t ht h
    obtain ⟨e, he, rfl⟩ := List.mem_map.1 ht
    exact (hcreated e he).eq_of_serial_eq hs h
  refine ⟨keeps_of_tabulates ?_, fun key a => ?_, ?_, fun s hs => ?_,
    tables_build_filter entries edits⟩
  · rw [hproperties]
    exact Entries.tabulates_ofList _
  · rw [build_concat]
    exact Prod.ext (Entries.exchange_fst _ _ _) rfl
  · rw [hsymbols, Entries.rename_ofList]
    · exact Entries.tabulates_ofList _
    · intro s hs
      obtain ⟨e, he, rfl⟩ := List.mem_map.1 hs
      exact hidentity e.1 (hcreated e he)
  · refine (Entries.find?_rename fun t ht => hidentity s hs t ?_).symm
    rwa [hsymbols, Entries.mem_keys_ofList] at ht

/-- Three symbols, two of which have the same description. -/
def createdSymbols : List (Option String) := [some "tag", some "tag", none]

def firstTag : Symbol := ⟨0, some "tag"⟩

def secondTag : Symbol := ⟨1, some "tag"⟩

def taggedEntries : List (String × Nat) := [("tag", 1), ("id", 2), ("tag", 3)]

def taggedEdits : List (Edit Nat) :=
  [.insertSymbol firstTag 4, .insert "id" 5, .insertSymbol secondTag 6, .exchange "x" 7,
    .insertSymbol firstTag 8]

open ObjectOf in
theorem build_tagged :
    (∀ e ∈ insertedSymbols taggedEdits, e.1.IsAmong createdSymbols) ∧
      (build taggedEntries taggedEdits).keys = ["tag", "id", "x"] ∧
      (build taggedEntries taggedEdits).get? "tag" = some 3 ∧
      (build taggedEntries taggedEdits).symbol? firstTag = some 8 ∧
      (build taggedEntries taggedEdits).symbol? ⟨2, none⟩ = none ∧
      ((build taggedEntries taggedEdits).exchange "id" 9).1 = some 5 := by
  have hcreated : ∀ e ∈ insertedSymbols taggedEdits, e.1.IsAmong createdSymbols := by
    intro e he
    simp only [insertedSymbols, taggedEdits, Edit.symbolProperty?, List.filterMap_cons,
      List.filterMap_nil, List.mem_cons, List.not_mem_nil, or_false] at he
    rcases he with rfl | rfl | rfl <;> rfl
  obtain ⟨hkeeps, hexchange, hsymbols, hidentity, -⟩ :=
    build_keeps_history taggedEntries taggedEdits createdSymbols hcreated
  refine ⟨hcreated, rfl, (hkeeps.get?_eq_some_iff _ _).2 ?_, ?_, ?_, ?_⟩
  · exact ⟨[("tag", 1), ("id", 2)], [("id", 5), ("x", 7)], rfl, by simp⟩
  · rw [hidentity firstTag rfl]
    exact (hsymbols.find?_eq_some_iff _ _).2 ⟨[(0, 4), (1, 6)], [], rfl, by simp⟩
  · rw [hidentity ⟨2, none⟩ rfl]
    exact (hsymbols.find?_eq_none_iff _).2 (by decide)
  · rw [hexchange]
    exact (hkeeps.get?_eq_some_iff _ _).2 ⟨[("tag", 1), ("id", 2), ("tag", 3)], [("x", 7)], rfl,
      by simp⟩

end Conform
