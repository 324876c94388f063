/-
# Lists of items

The items of a query with commas between them, and perhaps a comma behind the last, as the kinds of
tokens.  A list that is cut off anywhere but behind a dot is a list again, of fewer items or with a
shorter version in the last (`Writing.exists_listed_of_prefix`).  What such tokens mean can be told
without the list: between two commas stands one entry (`Writing.meaning_listed`).
-/
import PlatformGate.Proofs.Writing.Condition

namespace PlatformGate

namespace Writing

/-! ## 1. Items as kinds -/

/-- The components with dots between. -/
def Dotted.kinds (d : Dotted) : List (Kind String) :=
  (d.version.components.map Kind.number).intersperse (.fixed .dot)

def Item.kinds : Item → List (Kind String)
  | star => [.fixed .star]
  | platform name version => .word name.name :: version.elim [] Dotted.kinds

/-- More items, each behind a comma, and a comma behind them if `trailing`. -/
def commaItems (items : List Item) (trailing : Bool) : List (Kind String) :=
  items.flatMap (fun item => .fixed .comma :: item.kinds) ++ if trailing then [.fixed .comma] else []

/-- Items with commas between, and a comma behind the last if `trailing`. -/
def listed : List Item → Bool → List (Kind String)
  | [], _ => []
  | item :: items, trailing => item.kinds ++ commaItems items trailing

theorem commaItems_cons (item : Item) (items : List Item) (trailing : Bool) :
    commaItems (item :: items) trailing =
      .fixed .comma :: (item.kinds ++ commaItems items trailing) := by
  simp [commaItems]

theorem Dotted.kinds_spelling (d : Dotted) : d.spelling.map Spelling.kind = d.kinds := by
  have hcomponents : ∀ ns : List (Fin Lexeme.valueBound),
      ((ns.map component).intersperse (.fixed .dot (by decide))).map Spelling.kind =
        ((ns.map Fin.val).map Kind.number).intersperse (.fixed .dot) := by
    intro ns
    induction ns with
    | nil => rfl
    | cons n ns ih =>
      cases ns with
      | nil => rfl
      | cons m ns => exact congrArg (fun ks => .number n.val :: .fixed .dot :: ks) ih
  exact hcomponents d.components

theorem Item.kinds_spelling (item : Item) : item.spelling.map Spelling.kind = item.kinds := by
  cases item with
  | star => rfl
  | platform name version =>
    cases version with
    | none => rfl
    | some d => exact congrArg (List.cons _) d.kinds_spelling

theorem kinds_behindComma (items : List Item) (trailing : Bool) :
    (items.flatMap Condition.behindComma ++ Condition.closing trailing).map Spelling.kind =
      commaItems items trailing ++ [.fixed .rparen] := by
  induction items with
  | nil => cases trailing <;> rfl
  | cons item items ih =>
    rw [commaItems_cons, List.flatMap_cons, List.append_assoc, List.map_append, ih,
      Condition.behindComma, List.map_cons, item.kinds_spelling]
    simp [Spelling.kind]

/-- An item begins with a word or is a star. -/
theorem Item.kinds_eq_cons (item : Item) :
    ∃ k ks, item.kinds = k :: ks ∧ (k = .fixed .star ∨ ∃ name, k = .word name) := by
  cases item with
  | star => exact ⟨_, _, rfl, .inl rfl⟩
  | platform name version => exact ⟨_, _, rfl, .inr ⟨_, rfl⟩⟩

/-! ## 2. Lists that are cut off -/

/-- What begins a text of two parts begins the first, or goes on into the second. -/
theorem prefix_append_cases {α : Type} {w us vs : List α} (h : w <+: us ++ vs) :
    w <+: us ∨ ∃ v, v <+: vs ∧ w = us ++ v := by
  obtain ⟨rest, hrest⟩ := h
  rcases List.append_eq_append_iff.mp hrest with ⟨as, rfl, -⟩ | ⟨bs, rfl, rfl⟩
  · exact .inl (List.prefix_append w as)
  · exact .inr ⟨bs, List.prefix_append bs rest, rfl⟩

/-- What has a separator between its members, cut off anywhere but behind one. -/
theorem exists_take_of_prefix {α : Type} {sep : α} {w l : List α} (h : w <+: l.intersperse sep)
    (hsep : w.getLast? ≠ some sep) : ∃ n, w = (l.take n).intersperse sep := by
  induction l generalizing w with
  | nil => exact ⟨0, List.prefix_nil.mp h⟩
  | cons a l ih =>
    cases l with
    | nil =>
      rcases List.prefix_cons_iff.mp h with rfl | ⟨u, rfl, hu⟩
      · exact ⟨0, rfl⟩
      · obtain rfl := List.prefix_nil.mp hu
        exact ⟨1, rfl⟩
    | cons b l =>
      rw [List.intersperse_cons_cons] at h
      rcases List.prefix_cons_iff.mp h with rfl | ⟨u, rfl, hu⟩
      · exact ⟨0, rfl⟩
      rcases List.prefix_cons_iff.mp hu with rfl | ⟨v, rfl, hv⟩
      · exact ⟨1, rfl⟩
      cases v with
      | nil => exact absurd rfl hsep
      | cons c v =>
        obtain ⟨n, hn⟩ := ih hv (by simpa using hsep)
        cases n with
        | zero => cases hn
        | succ n => exact ⟨n + 2, by rw [hn]; rfl⟩

/-- An item that is cut off behind its first token, but not behind a dot, is an item. -/
theorem Item.exists_of_prefix {item : Item} {w : List (Kind String)} (h : w <+: item.kinds)
    (hne : w ≠ []) (hdot : w.getLast? ≠ some (.fixed .dot)) : ∃ item' : Item, w = item'.kinds := by
  cases item with
  | star =>
    rcases List.prefix_cons_iff.mp h with rfl | ⟨u, rfl, hu⟩
    · exact absurd rfl hne
    · obtain rfl := List.prefix_nil.mp hu
      exact ⟨.star, rfl⟩
  | platform name version =>
    rcases List.prefix_cons_iff.mp h with rfl | ⟨u, rfl, hu⟩
    · exact absurd rfl hne
    cases u with
    | nil => exact ⟨.platform name none, rfl⟩
    | cons k u =>
      cases version with
      | none => exact absurd (List.prefix_nil.mp hu) (List.cons_ne_nil k u)
      | some d =>
        obtain ⟨n, hn⟩ := exists_take_of_prefix hu (by simpa using hdot)
        rw [← List.map_take] at hn
        have htake : d.components.take n ≠ [] := by
          intro hnil
          rw [Dotted.version, ← List.map_take, hnil] at hn
          exact List.cons_ne_nil k u hn
        have hshort : (d.components.take n).length ≤ 3 := by
          rw [List.length_take]
          exact Nat.le_trans (Nat.min_le_right ..) d.short
        refine ⟨.platform name (some ⟨d.components.take n, htake, hshort⟩), ?_⟩
        rw [hn, Dotted.version, ← List.map_take]
        rfl

theorem exists_commaItems_of_prefix {items : List Item} {trailing : Bool}
    {w : List (Kind String)} (h : w <+: commaItems items trailing)
    (hdot : w.getLast? ≠ some (.fixed .dot)) :
    ∃ items' trailing', w = commaItems items' trailing' := by
  induction items generalizing w with
  | nil =>
    cases trailing with
    | false =>
      obtain rfl := List.prefix_nil.mp h
      exact ⟨[], false, rfl⟩
    | true =>
      rcases List.prefix_cons_iff.mp h with rfl | ⟨u, rfl, hu⟩
      · exact ⟨[], false, rfl⟩
      · obtain rfl := List.prefix_nil.mp hu
        exact ⟨[], true, rfl⟩
  | cons item items ih =>
    rw [commaItems_cons] at h
    rcases List.prefix_cons_iff.mp h with rfl | ⟨u, rfl, hu⟩
    · exact ⟨[], false, rfl⟩
    cases u with
    | nil => exact ⟨[], true, rfl⟩
    | cons k u =>
      have hdot' : (k :: u).getLast? ≠ some (.fixed .dot) := by simpa using hdot
      rcases prefix_append_cases hu with hu | ⟨v, hv, heq⟩
      · obtain ⟨item', hitem⟩ := Item.exists_of_prefix hu (List.cons_ne_nil k u) hdot'
        refine ⟨[item'], false, ?_⟩
        rw [commaItems_cons, hitem]
        exact congrArg _ (List.append_nil _).symm
      · have hdotv : v.getLast? ≠ some (.fixed .dot) := by
          intro hlast
          rw [heq, List.getLast?_append, hlast] at hdot'
          exact hdot' rfl
        obtain ⟨items', trailing', rfl⟩ := ih hv hdotv
        exact ⟨item :: items', trailing', by rw [commaItems_cons, heq]⟩

/-- **A list that is cut off, but not behind a dot, is a list.** -/
theorem exists_listed_of_prefix {items : List Item} {trailing : Bool} {w : List (Kind String)}
    (h : w <+: listed items trailing) (hdot : w.getLast? ≠ some (.fixed .dot)) :
    ∃ items' trailing', w = listed items' trailing' := by
  cases items with
  | nil => exact ⟨[], false, List.prefix_nil.mp h⟩
  | cons item items =>
    -- the list is what stands behind the first comma of a list with an item more
    have hcomma : .fixed .comma :: w <+: commaItems (item :: items) trailing := by
      rw [commaItems_cons]
      exact List.prefix_cons_inj _ |>.mpr h
    cases w with
    | nil => exact ⟨[], false, rfl⟩
    | cons k w =>
      obtain ⟨items', trailing', heq⟩ := exists_commaItems_of_prefix hcomma (by simpa using hdot)
      cases items' with
      | nil => cases trailing' <;> cases heq
      | cons item' items' =>
        rw [commaItems_cons] at heq
        exact ⟨item' :: items', trailing', (List.cons.inj heq).2⟩

/-! ## 3. What tokens mean -/

/-- The value of a number. -/
def number? : Kind String → Option Nat
  | .number n => some n
  | _ => none

/-- The entry that some tokens without a comma stand for: a star, or a platform with the version
that the numbers behind it are. -/
def entryOf? : List (Kind String) → Option (Entry Unit)
  | [.fixed .star] => some (Entry.star ())
  | .word name :: ks =>
    some (Entry.platform name (Version.ofComponents? (ks.filterMap number?)) ())
  | _ => none

/-- The entries that tokens between parentheses stand for.  Commas divide them. -/
def meaning (ks : List (Kind String)) : List (Entry Unit) :=
  (ks.splitOnP fun k => k == .fixed .comma).filterMap entryOf?

theorem Item.entryOf?_kinds (item : Item) : entryOf? item.kinds = some item.entry := by
  cases item with
  | star => rfl
  | platform name version =>
    cases version with
    | none => rfl
    | some d =>
      have hnumbers : ∀ ns : List Nat,
          ((ns.map Kind.number).intersperse (.fixed .dot)).filterMap number? = ns := by
        intro ns
        induction ns with
        | nil => rfl
        | cons n ns ih =>
          cases ns with
          | nil => rfl
          | cons m ns => exact congrArg (List.cons n) ih
      have hversion := hnumbers d.version.components
      change some (Entry.platform name.name (Version.ofComponents? (d.kinds.filterMap number?)) ()) = _
      rw [Dotted.kinds, hversion, Version.ofComponents?_components]
      rfl

/-- No comma stands in an item. -/
theorem Item.kinds_ne_comma (item : Item) :
    ∀ k ∈ item.kinds, (k == (.fixed .comma : Kind String)) = false := by
  cases item with
  | star => decide
  | platform name version =>
    refine List.forall_mem_cons.mpr ⟨rfl, ?_⟩
    cases version with
    | none => exact nofun
    | some d =>
      have hnumbers : ∀ ns : List Nat, ∀ k ∈ (ns.map Kind.number).intersperse (.fixed .dot),
          (k == (.fixed .comma : Kind String)) = false := by
        intro ns
        induction ns with
        | nil => exact nofun
        | cons n ns ih =>
          cases ns with
          | nil => exact List.forall_mem_singleton.mpr rfl
          | cons m ns =>
            exact List.forall_mem_cons.mpr ⟨rfl, List.forall_mem_cons.mpr ⟨rfl, ih⟩⟩
      exact hnumbers d.version.components

/-- An item means its entry, and commas divide what tokens mean. -/
theorem meaning_item (item : Item) : meaning item.kinds = [item.entry] := by
  rw [meaning, List.splitOnP_eq_singleton item.kinds_ne_comma, List.filterMap_cons,
    item.entryOf?_kinds]
  rfl

theorem meaning_comma (item : Item) (ks : List (Kind String)) :
    meaning (item.kinds ++ .fixed .comma :: ks) = item.entry :: meaning ks := by
  rw [meaning, List.splitOnP_append_cons_of_forall_mem item.kinds_ne_comma _ rfl,
    List.filterMap_cons, item.entryOf?_kinds]
  rfl

/-- **The items of a list are the entries that its tokens stand for.** -/
theorem meaning_listed (items : List Item) (trailing : Bool) :
    meaning (listed items trailing) = items.map Item.entry := by
  cases items with
  | nil => rfl
  | cons item items =>
    rw [listed]
    induction items generalizing item with
    | nil =>
      cases trailing with
      | false => exact (congrArg meaning (List.append_nil _)).trans (meaning_item item)
      | true => exact meaning_comma item []
    | cons next items ih =>
      rw [commaItems_cons, meaning_comma, ih]
      rfl

end Writing

end PlatformGate
