/-
# Interning one text after the other

Names are given out by a table that starts with the empty text alone.  After any calls the table
holds the empty text and behind it the distinct texts that were interned, in the order in which they
first came (`NameTable.tryInternAll_texts`).  A text keeps its place when others come behind it, so
one table, the last, tells all names at once; and the place of a text in that table is the number of
distinct texts before its first call (`NameTable.nameOf_eq`).

A table refuses a new text when the indices of names are used up.  Before that no call fails.

A table can be kept as a map from texts to names and a list of texts that are updated together
(`TextMap`).  The map then never goes out of step with the list, and calls give the same
(`TextMap.tryInternAll_initial`).
-/
import PlatformGate.Proofs.Names.Numbering

namespace PlatformGate

namespace NameTable

variable {table : NameTable} {texts : List String} {text : String}

/-! ## 1. Runs -/

/-- Interns one text after the other, up to the first that is refused. -/
def tryInternAll (table : NameTable) :
    List String → Except InternError (List Name × NameTable)
  | [] => .ok ([], table)
  | text :: texts => do
    let (name, table) ← table.tryIntern text
    let (names, table) ← table.tryInternAll texts
    return (name :: names, table)

/-- A new text makes the table longer by one. -/
theorem length_texts_intern (h : text ∉ table.texts) :
    (table.intern text).2.texts.length = table.texts.length + 1 := by
  rw [intern, dif_neg h]
  exact List.length_append

/-- What a table comes to know is refused only if there are too many texts in the end. -/
theorem tryIntern_eq_ok
    (hroom : (table.texts ++ text :: texts).eraseDups.length ≤ Name.maxIndex + 1) :
    table.tryIntern text = .ok (table.intern text) := by
  refine if_pos ?_
  by_cases hmem : text ∈ table.texts
  · exact .inl hmem
  · have hprefix := prefix_eraseDups_append (table.intern text).2.distinct texts
    have hle := hprefix.length_le
    rw [eraseDups_texts_intern, length_texts_intern hmem] at hle
    exact .inr (by omega)

/-- **All texts find room** if the distinct ones do.  The table then knows them behind those it
knew, and each has its name by its place in the end. -/
theorem tryInternAll_texts
    (hroom : (table.texts ++ texts).eraseDups.length ≤ Name.maxIndex + 1) :
    ∃ later : NameTable, later.texts = (table.texts ++ texts).eraseDups ∧
      table.tryInternAll texts = .ok (texts.map later.nameOf, later) := by
  induction texts generalizing table with
  | nil => exact ⟨table, by rw [List.append_nil, eraseDups_eq_self table.distinct], rfl⟩
  | cons text texts ih =>
    have htexts := table.eraseDups_texts_intern text texts
    have hfirst := tryIntern_eq_ok hroom
    rw [← htexts] at hroom
    obtain ⟨later, hlater, hrun⟩ := ih hroom
    refine ⟨later, hlater.trans htexts, ?_⟩
    have hname : (table.intern text).1 = later.nameOf text := by
      have hprefix := prefix_eraseDups_append (table.intern text).2.distinct texts
      rw [← hlater] at hprefix
      rw [nameOf_intern, nameOf_of_prefix hprefix (mem_texts_intern table text)]
    rw [tryInternAll, hfirst, List.map_cons, ← hname]
    simp only [bind, Except.bind, hrun]
    rfl

end NameTable

/-! ## 2. A map and a list -/

/-- The names of texts, and the texts in the order of their names. -/
structure TextMap where
  map : String → Option Name
  texts : List String

namespace TextMap

/-- What there is at the beginning: the name of the empty text. -/
def initial : TextMap := ⟨fun text => if text = "" then some Name.empty else none, [""]⟩

/-- The map and the list with one text more, under the next name. -/
def insert (m : TextMap) (text : String) : TextMap where
  map other := if other = text then some ⟨m.texts.length⟩ else m.map other
  texts := m.texts ++ [text]

/-- The name of a text.  A text that the map does not know goes into the map and into the list. -/
def tryIntern (m : TextMap) (text : String) : Except InternError (Name × TextMap) :=
  match m.map text with
  | some name => .ok (name, m)
  | none =>
    if m.texts.length ≤ Name.maxIndex then .ok (⟨m.texts.length⟩, m.insert text)
    else .error ⟨m.texts.length⟩

/-- Interns one text after the other, up to the first that is refused. -/
def tryInternAll (m : TextMap) : List String → Except InternError (List Name × TextMap)
  | [] => .ok ([], m)
  | text :: texts => do
    let (name, m) ← m.tryIntern text
    let (names, m) ← m.tryInternAll texts
    return (name :: names, m)

/-- The map and the list of a table. -/
def ofTable (table : NameTable) : TextMap := ⟨table.find?, table.texts⟩

variable {table : NameTable} {text : String}

theorem find?_of_mem (h : text ∈ table.texts) : table.find? text = some (table.nameOf text) := by
  have hindex : table.texts.idxOf? text = some (table.texts.idxOf text) :=
    List.findIdx?_eq_some_iff_findIdx_eq.mpr ⟨List.idxOf_lt_length_of_mem h, rfl⟩
  rw [NameTable.find?, hindex]
  rfl

theorem find?_of_not_mem (h : text ∉ table.texts) : table.find? text = none := by
  rw [NameTable.find?, List.idxOf?_eq_none_iff.mpr h]
  rfl

theorem initial_eq_ofTable : initial = ofTable NameTable.initial := by
  have hmap : initial.map = NameTable.initial.find? := by
    funext text
    by_cases h : text = ""
    · subst h
      rfl
    · have hnew : text ∉ NameTable.initial.texts := fun hmem => h (List.mem_singleton.mp hmem)
      rw [find?_of_not_mem hnew]
      exact if_neg h
  rw [initial, ofTable, ← hmap]
  rfl

/-- A new text gets the next name in the map, and every other text keeps its own. -/
theorem insert_ofTable (h : text ∉ table.texts) :
    (ofTable table).insert text = ofTable (table.extend text h) := by
  refine congrArg (TextMap.mk · (table.texts ++ [text])) (funext fun other => ?_)
  have htexts : (table.extend text h).texts = table.texts ++ [text] := rfl
  by_cases hother : other = text
  · subst hother
    have hmem : other ∈ (table.extend other h).texts := List.mem_append_right _ (by simp)
    have hlast : (table.texts ++ [other]).idxOf other = table.texts.length := by
      simp [List.idxOf_append, h]
    rw [if_pos rfl, find?_of_mem hmem, NameTable.nameOf, htexts, hlast]
    rfl
  rw [if_neg hother]
  by_cases hknown : other ∈ table.texts
  · have hmem : other ∈ (table.extend text h).texts := List.mem_append_left _ hknown
    have hprefix : table.texts <+: (table.extend text h).texts := ⟨[text], rfl⟩
    rw [find?_of_mem hmem, NameTable.nameOf_of_prefix hprefix hknown]
    exact find?_of_mem hknown
  · have hnew : other ∉ (table.extend text h).texts := by
      simp [htexts, hknown, hother]
    rw [find?_of_not_mem hnew]
    exact find?_of_not_mem hknown

/-- **One call gives the same** and leaves the map and the list of the table. -/
theorem tryIntern_ofTable (table : NameTable) (text : String) :
    (ofTable table).tryIntern text = (table.tryIntern text).map (Prod.map id ofTable) := by
  by_cases hknown : text ∈ table.texts
  · have hmap : (ofTable table).map text = some (table.nameOf text) := find?_of_mem hknown
    have hcall : table.tryIntern text = .ok (table.intern text) := if_pos (.inl hknown)
    rw [tryIntern, hmap, hcall, NameTable.intern, dif_pos hknown]
    rfl
  · have hmap : (ofTable table).map text = none := find?_of_not_mem hknown
    have hlength : (ofTable table).texts.length = table.texts.length := rfl
    rw [tryIntern, hmap, NameTable.tryIntern, insert_ofTable hknown]
    simp only [hknown, false_or, hlength]
    split
    · rw [NameTable.intern, dif_neg hknown]
      rfl
    · rfl

/-- **All calls give the same.** -/
theorem tryInternAll_ofTable (table : NameTable) (texts : List String) :
    (ofTable table).tryInternAll texts = (table.tryInternAll texts).map (Prod.map id ofTable) := by
  induction texts generalizing table with
  | nil => rfl
  | cons text texts ih =>
    rw [tryInternAll, NameTable.tryInternAll, tryIntern_ofTable]
    cases table.tryIntern text with
    | error e => rfl
    | ok first =>
      have hrest := ih first.2
      simp only [Except.map, bind, Except.bind, Prod.map, hrest]
      cases first.2.tryInternAll texts <;> rfl

/-- **From the beginning on,** a map with a list and a table come to the same. -/
theorem tryInternAll_initial (texts : List String) : initial.tryInternAll texts =
    (NameTable.initial.tryInternAll texts).map (Prod.map id ofTable) := by
  rw [initial_eq_ofTable]
  exact tryInternAll_ofTable NameTable.initial texts

end TextMap

namespace NameTable

variable {table : NameTable} {texts : List String} {text : String}

/-! ## 3. The place of a text -/

/-- The distinct texts that are not empty, in the order in which they first come. -/
def distinctTexts (texts : List String) : List String :=
  (texts.filter fun text => text != "").eraseDups

/-- The number of distinct texts before the first call for a text, the empty text included. -/
def placeOf (texts : List String) (text : String) : Nat :=
  if text = "" then 0 else 1 + (distinctTexts (texts.takeWhile (· != text))).length

theorem eraseDups_initial (texts : List String) :
    (initial.texts ++ texts).eraseDups = "" :: distinctTexts texts := by
  rw [initial, List.singleton_append, List.eraseDups_cons]
  rfl

theorem mem_distinctTexts : text ∈ distinctTexts texts ↔ text ∈ texts ∧ text ≠ "" := by
  simp [distinctTexts, List.mem_eraseDups]

/-- A text that comes for the first time goes behind the distinct texts before it. -/
theorem distinctTexts_append_cons {front : List String} (hnew : text ∉ front) (hsolid : text ≠ "")
    (back : List String) :
    ∃ more, distinctTexts (front ++ text :: back) = distinctTexts front ++ text :: more := by
  have hfilter : (text :: back).filter (fun text => text != "") =
      text :: back.filter fun text => text != "" := List.filter_cons_of_pos (by simpa using hsolid)
  have hfirst : (front.filter fun text => text != "").contains text = false := by
    simp [hnew]
  unfold distinctTexts
  rw [List.filter_append, hfilter, List.eraseDups_append, List.cons_removeAll, hfirst]
  exact ⟨_, congrArg _ List.eraseDups_cons⟩

/-- **The place of a text is the number of distinct texts before its first call.** -/
theorem idxOf_distinctTexts (hmem : text ∈ texts) :
    ("" :: distinctTexts texts).idxOf text = placeOf texts text := by
  unfold placeOf
  split
  · rename_i hempty
    rw [hempty, List.idxOf_cons_self]
  · rename_i hsolid
    -- up to its first call the texts are others
    obtain ⟨front, back, rfl, hnew⟩ := List.eq_append_cons_of_mem hmem
    have hothers : ∀ other ∈ front, (other != text) = true := fun other hother =>
      bne_iff_ne.mpr (ne_of_mem_of_not_mem hother hnew)
    have hfront : (front ++ text :: back).takeWhile (· != text) = front := by
      rw [List.takeWhile_append_of_pos hothers, List.takeWhile_cons_of_neg (by simp),
        List.append_nil]
    obtain ⟨more, hmore⟩ := distinctTexts_append_cons hnew hsolid back
    have hbehind : text ∉ "" :: distinctTexts front := fun h =>
      (List.mem_cons.mp h).elim hsolid fun h => hnew (mem_distinctTexts.mp h).1
    rw [hfront, hmore, ← List.cons_append, List.idxOf_append, if_neg hbehind,
      List.idxOf_cons_self, List.length_cons, Nat.zero_add, Nat.add_comm]

/-! ## 4. The initial table -/

/-- A text that is known is found behind its name. -/
theorem lookup_nameOf (hmem : text ∈ table.texts) : table.lookup (table.nameOf text) = text := by
  have hlt := List.idxOf_lt_length_of_mem hmem
  rw [lookup, nameOf, List.getD_eq_getElem?_getD, List.getElem?_eq_getElem hlt, Option.getD_some,
    List.getElem_idxOf]

/-- No text stands behind an index that was not given out. -/
theorem lookup_of_size_le {name : Name} (h : table.size ≤ name.index) : table.lookup name = "" := by
  rw [lookup, List.getD_eq_getElem?_getD, List.getElem?_eq_none h, Option.getD_none]

/-- **Names are a stable bijection.**  No call on an initial table fails as long as there are
indices for the distinct texts.  Two calls give one name exactly if they were for one text, the index
is the number of distinct texts before the first call for it (0 for the empty text), and in the end,
however many calls came later, every name that was given out leads back to its text. -/
theorem interns_initial (texts : List String)
    (hroom : (distinctTexts texts).length ≤ Name.maxIndex) :
    ∃ names later, initial.tryInternAll texts = .ok (names, later) ∧
      names = texts.map (fun text => ⟨placeOf texts text⟩) ∧
      (∀ (i j : Nat) (hi : i < texts.length) (hj : j < texts.length),
        names[i]? = names[j]? ↔ texts[i] = texts[j]) ∧
      names.map later.lookup = texts ∧
      later.size = 1 + (distinctTexts texts).length ∧
      ∀ name : Name, later.size ≤ name.index → later.lookup name = "" := by
  have hinitial := eraseDups_initial texts
  have hlength : (initial.texts ++ texts).eraseDups.length ≤ Name.maxIndex + 1 := by
    rw [hinitial, List.length_cons]
    exact Nat.succ_le_succ hroom
  obtain ⟨later, hlater, hrun⟩ := tryInternAll_texts hlength
  have hknown : ∀ text ∈ texts, text ∈ later.texts := fun text htext => by
    rw [hlater, List.mem_eraseDups]
    exact List.mem_append_right _ htext
  rw [hinitial] at hlater
  refine ⟨_, later, hrun, ?_, fun i j hi hj => ?_, ?_, ?_, fun name => lookup_of_size_le⟩
  · refine List.map_congr_left fun text htext => ?_
    rw [nameOf, hlater, idxOf_distinctTexts htext]
  · rw [List.getElem?_map, List.getElem?_map, List.getElem?_eq_getElem hi,
      List.getElem?_eq_getElem hj, Option.map_some, Option.map_some, Option.some.injEq]
    exact nameOf_inj (hknown _ (List.getElem_mem hi)) (hknown _ (List.getElem_mem hj))
  · rw [List.map_map]
    exact (List.map_congr_left fun text htext => lookup_nameOf (hknown text htext)).trans
      (List.map_id texts)
  · rw [size, hlater, List.length_cons, Nat.add_comm]

theorem interns_initial_repeated :
    (distinctTexts ["OSX", "", "iOS", "OSX"]).length ≤ Name.maxIndex ∧
      ∃ later, initial.tryInternAll ["OSX", "", "iOS", "OSX"] =
          .ok ([⟨1⟩, ⟨0⟩, ⟨2⟩, ⟨1⟩], later) ∧
        later.size = 3 ∧ later.lookup ⟨1⟩ = "OSX" ∧ later.lookup ⟨3⟩ = "" := by
  have hroom : (distinctTexts ["OSX", "", "iOS", "OSX"]).length ≤ Name.maxIndex := by
    decide +kernel
  obtain ⟨names, later, hrun, hnames, -, hlookup, hsize, hnone⟩ := interns_initial _ hroom
  have hplaces : names = [⟨1⟩, ⟨0⟩, ⟨2⟩, ⟨1⟩] := hnames.trans (by decide +kernel)
  have hthree : later.size = 3 := hsize.trans (by decide +kernel)
  subst hplaces
  exact ⟨hroom, later, hrun, hthree, (List.cons.inj hlookup).1, hnone ⟨3⟩ (Nat.le_of_eq hthree)⟩

end NameTable

end PlatformGate
