/-
# How names are numbered

A name table holds each text once, in the order in which the texts first came.  Interning a text
that is known changes nothing, and one that is new goes behind the others; so a number given out
once stays the number of its text, and the tokens of a source are numbered by the first occurrences
of their texts (`Token.internAll_numbered`).
-/
import PlatformGate.Token.Reading

namespace PlatformGate

/-! ## 1. First occurrences -/

section FirstOccurrences

variable {α : Type} [BEq α] [LawfulBEq α] {l r : List α} {x : α}

theorem eraseDups_eq_self (h : l.Nodup) : l.eraseDups = l := by
  induction l with
  | nil => rfl
  | cons a l ih =>
    obtain ⟨ha, hl⟩ := List.nodup_cons.mp h
    have hfilter : l.filter (fun b => !b == a) = l := by
      refine List.filter_eq_self.mpr fun b hb => ?_
      have hne : b ≠ a := fun heq => ha (heq ▸ hb)
      simp [hne]
    rw [List.eraseDups_cons, hfilter, ih hl]

theorem eraseDups_concat_of_mem (h : x ∈ l) : (l ++ x :: r).eraseDups = (l ++ r).eraseDups := by
  have hcontains : l.contains x = true := List.contains_iff_mem.mpr h
  rw [List.eraseDups_append, List.eraseDups_append, List.cons_removeAll, hcontains]
  rfl

/-- What comes first among distinct members goes on doing so when others come behind. -/
theorem prefix_eraseDups_append (h : l.Nodup) (r : List α) : l <+: (l ++ r).eraseDups := by
  rw [List.eraseDups_append, eraseDups_eq_self h]
  exact List.prefix_append _ _

end FirstOccurrences

/-! ## 2. Tables -/

namespace NameTable

variable {table later : NameTable} {text : String}

/-- The name that belongs to a text by its place in the table. -/
def nameOf (table : NameTable) (text : String) : Name := ⟨table.texts.idxOf text⟩

/-- **A table that knows more gives the same names** to the texts that were known. -/
theorem nameOf_of_prefix (h : table.texts <+: later.texts) (hmem : text ∈ table.texts) :
    later.nameOf text = table.nameOf text := by
  obtain ⟨more, hmore⟩ := h
  unfold nameOf
  rw [← hmore, List.idxOf_append, if_pos hmem]

/-- No two texts that are known have one name. -/
theorem nameOf_inj {other : String} (hmem : text ∈ table.texts) (hother : other ∈ table.texts) :
    table.nameOf text = table.nameOf other ↔ text = other := by
  refine ⟨fun h => ?_, fun h => h ▸ rfl⟩
  have hlt := List.idxOf_lt_length_of_mem hmem
  have hlt' := List.idxOf_lt_length_of_mem hother
  have hindex : table.texts.idxOf text = table.texts.idxOf other := congrArg Name.index h
  rw [← List.getElem_idxOf hlt, ← List.getElem_idxOf hlt']
  exact (List.getElem_inj table.distinct).mpr hindex

theorem texts_intern (table : NameTable) (text : String) :
    (table.intern text).2.texts = (table.texts ++ [text]).eraseDups := by
  unfold intern
  split
  · rename_i hmem
    rw [eraseDups_concat_of_mem hmem, List.append_nil, eraseDups_eq_self table.distinct]
  · rename_i hnew
    exact (eraseDups_eq_self (table.extend text hnew).distinct).symm

theorem nameOf_intern (table : NameTable) (text : String) :
    (table.intern text).1 = (table.intern text).2.nameOf text := by
  unfold intern nameOf
  split
  · rfl
  · rename_i hnew
    simp [extend, List.idxOf_append, hnew]

theorem mem_texts_intern (table : NameTable) (text : String) :
    text ∈ (table.intern text).2.texts := by
  rw [texts_intern, List.mem_eraseDups]
  exact List.mem_append_right _ (List.mem_singleton_self text)

/-- A text interned in front of others is one of the texts that come first. -/
theorem eraseDups_texts_intern (table : NameTable) (text : String) (more : List String) :
    ((table.intern text).2.texts ++ more).eraseDups = (table.texts ++ text :: more).eraseDups := by
  unfold intern
  split
  · rename_i hmem
    exact (eraseDups_concat_of_mem hmem).symm
  · exact congrArg List.eraseDups (List.append_assoc table.texts [text] more)

end NameTable

/-! ## 3. Tokens -/

namespace Kind

/-- The table knows at least what it knew. -/
theorem eraseDups_texts_intern (table : NameTable) (k : Kind String) (more : List String) :
    ((k.intern table).2.texts ++ more).eraseDups =
      (table.texts ++ (k.name?.toList ++ more)).eraseDups := by
  cases k with
  | word text | poundWord text => exact table.eraseDups_texts_intern text more
  | _ => rfl

theorem intern_eq_mapName (table : NameTable) (k : Kind String) :
    (k.intern table).1 = k.mapName (k.intern table).2.nameOf := by
  cases k with
  | word text => exact congrArg word (table.nameOf_intern text)
  | poundWord text => exact congrArg poundWord (table.nameOf_intern text)
  | _ => rfl

theorem mem_texts_intern {table : NameTable} {k : Kind String} {text : String}
    (h : k.name? = some text) : text ∈ (k.intern table).2.texts := by
  cases k with
  | word t | poundWord t =>
    obtain rfl := Option.some.inj h
    exact table.mem_texts_intern t
  | _ => cases h

theorem mapName_congr {ν μ : Type} {f g : ν → μ} {k : Kind ν}
    (h : ∀ n, k.name? = some n → f n = g n) : k.mapName f = k.mapName g := by
  cases k with
  | word n | poundWord n => exact congrArg _ (h n rfl)
  | _ => rfl

end Kind

namespace Token

/-- The texts of words and of words behind a `#`, in the order of the tokens. -/
def names (ts : List (Token String)) : List String := ts.filterMap fun t => t.kind.name?

theorem names_cons (t : Token String) (ts : List (Token String)) :
    names (t :: ts) = t.kind.name?.toList ++ names ts := by
  unfold names
  cases hname : t.kind.name? <;> simp [hname]

/-- **Tokens are numbered by the first occurrences of their texts,** behind what the table knew. -/
theorem internAll_numbered (table : NameTable) (ts : List (Token String)) :
    (internAll table ts).2.texts = (table.texts ++ names ts).eraseDups ∧
      (internAll table ts).1.map kind =
        ts.map fun t => t.kind.mapName (internAll table ts).2.nameOf := by
  induction ts generalizing table with
  | nil =>
    refine ⟨?_, rfl⟩
    change table.texts = (table.texts ++ []).eraseDups
    rw [List.append_nil, eraseDups_eq_self table.distinct]
  | cons t ts ih =>
    obtain ⟨htexts, hkinds⟩ := ih (t.kind.intern table).2
    have hhead : (internAll table (t :: ts)).2 = (internAll (t.kind.intern table).2 ts).2 := rfl
    constructor
    · rw [hhead, htexts, names_cons, Kind.eraseDups_texts_intern]
    · have hfirst : (t.kind.intern table).1 =
          t.kind.mapName (internAll (t.kind.intern table).2 ts).2.nameOf := by
        rw [Kind.intern_eq_mapName]
        refine Kind.mapName_congr fun text htext => ?_
        refine (NameTable.nameOf_of_prefix ?_ (Kind.mem_texts_intern htext)).symm
        rw [htexts]
        exact prefix_eraseDups_append (t.kind.intern table).2.distinct _
      rw [hhead, List.map_cons, ← hkinds, ← hfirst]
      rfl

end Token

end PlatformGate
