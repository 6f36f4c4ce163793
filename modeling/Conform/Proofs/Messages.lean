import Conform.Report
import Conform.Proofs.Lists

namespace Conform

/-- The segment has a name or a number to print, and the name has none of the characters that a
message puts around its parts. -/
def Segment.IsLegible : Segment → Prop
  | .key name => ∀ c ∈ ['.', '[', '(', ','], c ∉ name.toList
  | .index _ => True
  | .symbol _ => False

/-- A path whose text tells its segments apart. An empty key that opens it would leave no trace in
the text. -/
structure Path.IsLegible (p : Path) : Prop where
  segments : ∀ s ∈ p, s.IsLegible
  opening : ∀ s ∈ p.head?, s ≠ .key ""

/-- Texts of parts that can be taken apart: each starts with a delimiter and ends where the next one
stands or all is over. -/
structure Separates {α β : Type} (D : β → Prop) (Q : α → Prop) (f : α → List β) : Prop where
  starts : ∀ a, Q a → ∃ b rest, f a = b :: rest ∧ D b
  unique : ∀ a a', Q a → Q a' → ∀ r r', (∀ b ∈ r.head?, D b) → (∀ b ∈ r'.head?, D b) →
    f a ++ r = f a' ++ r' → a = a' ∧ r = r'

namespace Separates

variable {α β : Type} {D : β → Prop} {Q : α → Prop} {f : α → List β} {as bs : List α}

theorem head (h : Separates D Q f) (has : ∀ a ∈ as, Q a) : ∀ b ∈ (as.flatMap f).head?, D b := by
  intro b hb
  cases as with
  | nil => cases hb
  | cons a rest =>
    obtain ⟨d, text, ha, hd⟩ := h.starts a (has a List.mem_cons_self)
    rw [List.flatMap_cons, ha] at hb
    cases hb
    exact hd

theorem flatMap_ne_nil (h : Separates D Q f) {a : α} (ha : Q a) (rest : List α) :
    (a :: rest).flatMap f ≠ [] := by
  obtain ⟨d, text, ha, -⟩ := h.starts a ha
  rw [List.flatMap_cons, ha]
  exact List.cons_ne_nil _ _

theorem flatMap_injective (h : Separates D Q f) (has : ∀ a ∈ as, Q a) (hbs : ∀ b ∈ bs, Q b)
    (heq : as.flatMap f = bs.flatMap f) : as = bs := by
  induction as generalizing bs with
  | nil =>
    cases bs with
    | nil => rfl
    | cons b rest' => exact absurd heq.symm (h.flatMap_ne_nil (hbs b List.mem_cons_self) rest')
  | cons a rest ih =>
    cases bs with
    | nil => exact absurd heq (h.flatMap_ne_nil (has a List.mem_cons_self) rest)
    | cons b rest' =>
      obtain ⟨ha, hrest⟩ := List.forall_mem_cons.1 has
      obtain ⟨hb, hrest'⟩ := List.forall_mem_cons.1 hbs
      rw [List.flatMap_cons, List.flatMap_cons] at heq
      obtain ⟨rfl, htail⟩ := h.unique a b ha hb _ _ (h.head hrest) (h.head hrest') heq
      exact congrArg (a :: ·) (ih hrest hrest' htail)

end Separates

theorem digit_ne {c : Char} (hc : c.isDigit = false) (n : Nat) :
    ∀ d ∈ Nat.toDigits 10 n, d ≠ c := by
  rintro d hd rfl
  rw [Nat.isDigit_of_mem_toDigits (by decide) (by decide) hd] at hc
  cases hc

namespace Segment

def Joins (c : Char) : Prop := c = '.' ∨ c = '['

variable {s t : Segment} {r r' : List Char}

theorem toList_text_index (i : Nat) :
    (index i).text.toList = '[' :: (Nat.toDigits 10 i ++ [']']) := by
  simp [text]

theorem key_unique {m n : String} (hm : (key m).IsLegible) (hn : (key n).IsLegible)
    (hr : ∀ c ∈ r.head?, Joins c) (hr' : ∀ c ∈ r'.head?, Joins c)
    (h : m.toList ++ r = n.toList ++ r') : key m = key n ∧ r = r' := by
  have hplain : ∀ {name : String}, (key name).IsLegible → ∀ c ∈ name.toList, ¬Joins c := by
    rintro name hname c hc (rfl | rfl)
    · exact hname '.' (by simp) hc
    · exact hname '[' (by simp) hc
  obtain ⟨hmn, hrest⟩ := append_unique h (hplain hm) hr (hplain hn) hr'
  exact ⟨congrArg key (String.toList_injective hmn), hrest⟩

theorem index_unique {i j : Nat} (h : (index i).text.toList ++ r = (index j).text.toList ++ r') :
    index i = index j ∧ r = r' := by
  simp only [toList_text_index, List.cons_append, List.append_assoc, List.cons.injEq, true_and,
    List.nil_append] at h
  obtain ⟨hij, -, hrest⟩ := first_unique h (digit_ne rfl i) rfl (digit_ne rfl j) rfl
  exact ⟨by simpa using congrArg (Nat.ofDigitChars 10 · 0) hij, hrest⟩

/-- The first character tells an opening key from an index. -/
theorem text_key_ne_index {name : String} {i : Nat} (hname : (key name).IsLegible)
    (hne : key name ≠ key "") : (key name).text.toList ++ r ≠ (index i).text.toList ++ r' := by
  intro h
  rw [toList_text_index, text] at h
  cases hn : name.toList with
  | nil => exact hne (congrArg key (String.toList_injective hn))
  | cons c rest =>
    rw [hn, List.cons_append, List.cons_append, List.cons.injEq] at h
    exact hname '[' (by simp) (by simp [hn, h.1])

theorem text_unique (hs : s.IsLegible) (ht : t.IsLegible) (hs' : s ≠ .key "") (ht' : t ≠ .key "")
    (hr : ∀ c ∈ r.head?, Joins c) (hr' : ∀ c ∈ r'.head?, Joins c)
    (h : s.text.toList ++ r = t.text.toList ++ r') : s = t ∧ r = r' := by
  cases s with
  | symbol => exact hs.elim
  | key m =>
    cases t with
    | symbol => exact ht.elim
    | index => exact absurd h (text_key_ne_index hs hs')
    | key n => exact key_unique hs ht hr hr' h
  | index i =>
    cases t with
    | symbol => exact ht.elim
    | key => exact absurd h.symm (text_key_ne_index ht ht')
    | index j => exact index_unique h

theorem separates_followingText :
    Separates Joins IsLegible fun s => s.followingText.toList where
  starts := by
    intro s hs
    cases s with
    | key name => exact ⟨'.', name.toList, by simp [followingText], .inl rfl⟩
    | index i => exact ⟨'[', _, toList_text_index i, .inr rfl⟩
    | symbol => exact hs.elim
  unique := by
    intro s t hs ht r r' hr hr' h
    cases s with
    | symbol => exact hs.elim
    | key m =>
      cases t with
      | symbol => exact ht.elim
      | index j => simp [followingText, toList_text_index] at h
      | key n =>
        simp only [followingText, String.toList_append, List.append_assoc] at h
        exact key_unique hs ht hr hr' (List.append_cancel_left h)
    | index i =>
      cases t with
      | symbol => exact ht.elim
      | key n => simp [followingText, toList_text_index] at h
      | index j => exact index_unique h

/-- The round brackets and the commas of a message are none of its segments'. -/
theorem notMem_texts (hs : s.IsLegible) {c : Char} (hc : c ∈ ['(', ',']) :
    c ∉ s.text.toList ∧ c ∉ s.followingText.toList := by
  cases s with
  | key name =>
    have hname : c ∉ name.toList := hs c (.tail _ (.tail _ hc))
    have hpoint : c ∉ ".".toList := by
      rcases List.mem_pair.1 hc with rfl | rfl <;> simp
    refine ⟨hname, ?_⟩
    rw [followingText, String.toList_append, List.mem_append]
    exact not_or.2 ⟨hpoint, hname⟩
  | index i =>
    have hindex : c ∉ (index i).text.toList := by
      rw [toList_text_index, List.mem_cons, List.mem_append, List.mem_singleton]
      rintro (h | h | h)
      · rcases List.mem_pair.1 hc with rfl | rfl <;> simp at h
      · rcases List.mem_pair.1 hc with rfl | rfl <;> exact digit_ne rfl i _ h rfl
      · rcases List.mem_pair.1 hc with rfl | rfl <;> simp at h
    exact ⟨hindex, hindex⟩
  | symbol => exact hs.elim

end Segment

namespace Path

variable {p q : Path} {s : Segment} {rest : Path}

theorem toList_text_cons (s : Segment) (rest : Path) :
    (text (s :: rest)).toList = s.text.toList ++ rest.flatMap fun t => t.followingText.toList := by
  simp [text, String.toList_join, List.flatMap_map]

theorem IsLegible.cons (h : IsLegible (s :: rest)) :
    s.IsLegible ∧ s ≠ .key "" ∧ ∀ t ∈ rest, t.IsLegible :=
  ⟨h.segments s List.mem_cons_self, h.opening s rfl, fun _ ht => h.segments _ (.tail _ ht)⟩

theorem text_ne_empty (h : IsLegible (s :: rest)) : text (s :: rest) ≠ "" := by
  intro he
  obtain ⟨hs, hne, -⟩ := h.cons
  have hnil := congrArg String.toList he
  rw [toList_text_cons, String.toList_empty, List.append_eq_nil_iff] at hnil
  cases s with
  | key name => exact hne (congrArg Segment.key (String.toList_injective hnil.1))
  | index i => simp [Segment.toList_text_index] at hnil
  | symbol => exact hs.elim

theorem eq_of_text_eq (hp : p.IsLegible) (hq : q.IsLegible) (h : p.text = q.text) : p = q := by
  cases p with
  | nil =>
    cases q with
    | nil => rfl
    | cons t rest' => exact absurd h.symm (text_ne_empty hq)
  | cons s rest =>
    cases q with
    | nil => exact absurd h (text_ne_empty hp)
    | cons t rest' =>
      obtain ⟨hs, hs', hrest⟩ := hp.cons
      obtain ⟨ht, ht', hrest'⟩ := hq.cons
      have hseparates := Segment.separates_followingText
      have htext := congrArg String.toList h
      rw [toList_text_cons, toList_text_cons] at htext
      obtain ⟨rfl, hfollowing⟩ := Segment.text_unique hs ht hs' ht' (hseparates.head hrest)
        (hseparates.head hrest') htext
      exact congrArg (s :: ·) (hseparates.flatMap_injective hrest hrest' hfollowing)

theorem notMem_text (hp : p.IsLegible) {c : Char} (hc : c ∈ ['(', ',']) : c ∉ p.text.toList := by
  cases p with
  | nil => exact List.not_mem_nil
  | cons s rest =>
    obtain ⟨hs, -, hrest⟩ := hp.cons
    rw [toList_text_cons, List.mem_append, List.mem_flatMap]
    rintro (h | ⟨t, ht, h⟩)
    · exact (Segment.notMem_texts hs hc).1 h
    · exact (Segment.notMem_texts (hrest t ht) hc).2 h

end Path

namespace ParseError

variable {p q : Path} {ps qs : List Path}

theorem eq_of_pathText_eq (hp : p.IsLegible) (hq : q.IsLegible) (h : pathText p = pathText q) :
    p = q := by
  have hroot : ∀ {s rest}, Path.IsLegible (s :: rest) → "(root)" ≠ Path.text (s :: rest) := by
    intro s rest hlegible he
    have hmem : '(' ∈ (Path.text (s :: rest)).toList := by
      rw [← he]
      simp
    exact Path.notMem_text hlegible (by simp) hmem
  cases p with
  | nil =>
    cases q with
    | nil => rfl
    | cons t rest' => exact absurd h (hroot hq)
  | cons s rest =>
    cases q with
    | nil => exact absurd h.symm (hroot hp)
    | cons t rest' => exact Path.eq_of_text_eq hp hq h

theorem comma_notMem_pathText (hp : p.IsLegible) : ∀ c ∈ (pathText p).toList, c ≠ ',' := by
  rintro c hc rfl
  cases p with
  | nil => simp [pathText, Path.isRoot] at hc
  | cons s rest => exact Path.notMem_text hp (by simp) hc

theorem pathText_unique (hp : p.IsLegible) (hq : q.IsLegible) {r r' : List Char}
    (hr : ∀ c ∈ r.head?, c = ',') (hr' : ∀ c ∈ r'.head?, c = ',')
    (h : (pathText p).toList ++ r = (pathText q).toList ++ r') : p = q ∧ r = r' := by
  obtain ⟨htext, hrest⟩ :=
    append_unique h (comma_notMem_pathText hp) hr (comma_notMem_pathText hq) hr'
  exact ⟨eq_of_pathText_eq hp hq (String.toList_injective htext), hrest⟩

theorem separates_pathText :
    Separates (· = ',') Path.IsLegible fun p => ", ".toList ++ (pathText p).toList where
  starts := fun p _ => ⟨',', ' ' :: (pathText p).toList, rfl, rfl⟩
  unique := by
    intro p q hp hq r r' hr hr' h
    rw [List.append_assoc, List.append_assoc] at h
    exact pathText_unique hp hq hr hr' (List.append_cancel_left h)

theorem toList_listText_cons (p : Path) (ps : List Path) :
    (listText (p :: ps)).toList =
      (pathText p).toList ++ ps.flatMap fun q => ", ".toList ++ (pathText q).toList := by
  rw [listText, List.isEmpty_cons, if_neg Bool.false_ne_true, List.map_cons]
  induction ps generalizing p with
  | nil => simp
  | cons q ps ih =>
    rw [List.map_cons, String.intercalate_cons_cons, String.toList_append, ih q, List.flatMap_cons,
      String.toList_append]
    simp only [List.append_assoc]

/-- Lists of the same length print apart. Their length matters only for the word that stands for
the empty list. -/
theorem eq_of_listText_eq (hps : ∀ p ∈ ps, p.IsLegible) (hqs : ∀ q ∈ qs, q.IsLegible)
    (hlength : ps.length = qs.length) (h : listText ps = listText qs) : ps = qs := by
  cases ps with
  | nil => exact (List.eq_nil_of_length_eq_zero hlength.symm).symm
  | cons p ps =>
    cases qs with
    | nil => cases hlength
    | cons q qs =>
      obtain ⟨hp, hps'⟩ := List.forall_mem_cons.1 hps
      obtain ⟨hq, hqs'⟩ := List.forall_mem_cons.1 hqs
      have htext := congrArg String.toList h
      rw [toList_listText_cons, toList_listText_cons] at htext
      obtain ⟨rfl, hrest⟩ := pathText_unique hp hq (separates_pathText.head hps')
        (separates_pathText.head hqs') htext
      exact congrArg (p :: ·) (separates_pathText.flatMap_injective hps' hqs' hrest)

theorem message_rejected (ps : List Path) : (rejected ps).message =
    "input rejected at " ++ toString ps.length ++ " path(s): " ++ listText ps :=
  rfl

/-- The number of the paths ends where the blank after it stands. -/
theorem length_and_listText_of_message_eq (h : (rejected ps).message = (rejected qs).message) :
    ps.length = qs.length ∧ listText ps = listText qs := by
  have hnumber : ∀ n : Nat, (toString n).toList = Nat.toDigits 10 n := by simp
  have hblank : " path(s): ".toList = ' ' :: "path(s): ".toList := by simp
  have htext := congrArg String.toList h
  rw [message_rejected, message_rejected] at htext
  simp only [String.toList_append, hnumber, hblank] at htext
  rw [List.append_assoc, List.append_assoc, List.append_assoc, List.append_assoc,
    List.append_cancel_left_eq] at htext
  obtain ⟨hlength, -, hlist⟩ := first_unique htext (digit_ne rfl _) rfl (digit_ne rfl _) rfl
  exact ⟨by simpa using congrArg (Nat.ofDigitChars 10 · 0) hlength,
    String.toList_injective (List.append_cancel_left hlist)⟩

end ParseError

/-- A message of rejection says which paths were recorded, in which order and how often, and the
text of a path says which path it is. -/
theorem message_identifies :
    (∀ ps qs : List Path, (∀ p ∈ ps, p.IsLegible) → (∀ q ∈ qs, q.IsLegible) →
      ((ParseError.rejected ps).message = (ParseError.rejected qs).message ↔ ps = qs)) ∧
    ∀ p q : Path, p.IsLegible → q.IsLegible → (p.text = q.text ↔ p = q) := by
  refine ⟨fun ps qs hps hqs => ⟨fun h => ?_, fun h => h ▸ rfl⟩, fun p q hp hq =>
    ⟨Path.eq_of_text_eq hp hq, fun h => h ▸ rfl⟩⟩
  obtain ⟨hlength, hlist⟩ := ParseError.length_and_listText_of_message_eq h
  exact ParseError.eq_of_listText_eq hps hqs hlength hlist

/-- A key that ends like an index, an index, and a key without characters. -/
def bracketed : Path := [.key "a]", .index 0, .key ""]

def dotted : Path := [.key "a]", .key "0", .key ""]

theorem message_bracketed :
    (bracketed.IsLegible ∧ dotted.IsLegible ∧ Path.root.IsLegible) ∧
      (ParseError.rejected [bracketed, .root]).message ≠
        (ParseError.rejected [dotted, .root]).message ∧
      bracketed.text ≠ dotted.text := by
  have hb : bracketed.IsLegible :=
    ⟨by simp [bracketed, Segment.IsLegible], by simp [bracketed]⟩
  have hd : dotted.IsLegible := ⟨by simp [dotted, Segment.IsLegible], by simp [dotted]⟩
  have hr : Path.root.IsLegible := ⟨by simp [Path.root], by simp [Path.root]⟩
  obtain ⟨hmessage, htext⟩ := message_identifies
  refine ⟨⟨hb, hd, hr⟩, fun h => ?_, fun h => ?_⟩
  · have heq := (hmessage _ _ (by simp [hb, hr]) (by simp [hd, hr])).1 h
    simp [bracketed, dotted] at heq
  · have heq := (htext _ _ hb hd).1 h
    simp [bracketed, dotted] at heq

/-- A first key without characters prints like the root. -/
example : Path.text [.key ""] = Path.text .root := rfl

end Conform
