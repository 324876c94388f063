/-
# A source that is built

Going through a source once, reporting and keeping nodes on the way, gives what reading it as trees
and laying these out gives, with all ids cut off to words of 32 bits (`Outcome.built_eq_words`).  So
a builder, which is told the count of errors on the way, builds the same under every limit
(`Outcome.built_of_limit`).

In a short source nothing is cut off.  All that an arena of a source names is there (`Arena.Forest`),
and what there is, the tokens pay for; so an id that is given out or stored in a list is small enough
to be its own word, and so are the ends of every list.
-/
import PlatformGate.Proofs.Building.Lines
import PlatformGate.Proofs.Cost.Bounds
import PlatformGate.Proofs.Session.Limits

namespace PlatformGate

/-! ## 1. Small numbers -/

section Small

variable {s : NodeSort} {α ρ : Type}

theorem Id.word_eq {i : Id s} (h : i.index < UInt32.size) : i.word = i :=
  congrArg Id.mk (Store.toNat_nextIndex h)

theorem Slots.word_eq {r : Slots s} (h : r.start + r.length < UInt32.size) : r.word = r := by
  have hstart := Store.toNat_nextIndex (n := r.start) (by omega)
  exact congr (congrArg Slots.mk hstart) (Store.toNat_nextIndex_sub h)

/-- The numbers that the part names are words. -/
def Part.Small : Part → Prop
  | one x => x.index < UInt32.size
  | elseIf i => i.index < UInt32.size
  | list r => r.start + r.length < UInt32.size

theorem ExprForm.word_eq {form : ExprForm} (h : ∀ p ∈ form.parts, p.Small) : form.word = form := by
  cases form <;> simp_all [parts, word, Part.Small, Id.ref, Id.word_eq, Slots.word_eq]

theorem map_word_eq {i? : Option (Id .expr)} (h : ∀ p ∈ optionParts i?, p.Small) :
    i?.map Id.word = i? := by
  cases i? with
  | none => rfl
  | some i => exact congrArg some (Id.word_eq (h _ (List.mem_singleton_self _)))

theorem ClauseForm.word_eq {form : ClauseForm ρ} (h : ∀ p ∈ form.parts, p.Small) :
    form.word = form := by
  cases form with
  | binding m b i? => rw [word, map_word_eq h]
  | _ => simp_all [parts, word, Part.Small, Id.ref, Id.word_eq]

theorem map_blockWord_eq {b? : Option (BlockNode ρ)} (h : ∀ p ∈ blockParts b?, p.Small) :
    b?.map BlockNode.word = b? := by
  cases b? with
  | none => rfl
  | some b =>
    have hstmts := Slots.word_eq (h _ (List.mem_singleton_self _))
    rw [Option.map_some, BlockNode.word, hstmts]

theorem map_elseWord_eq {e? : Option (ElseNode ρ)} (h : ∀ p ∈ elseParts e?, p.Small) :
    e?.map ElseNode.word = e? := by
  cases e? with
  | none => rfl
  | some e =>
    cases e with
    | block b =>
      have hstmts := Slots.word_eq (h _ (List.mem_singleton_self _))
      rw [Option.map_some, ElseNode.word, BlockNode.word, hstmts]
    | elseIf i =>
      have hi := Id.word_eq (h _ (List.mem_singleton_self _))
      rw [Option.map_some, ElseNode.word, hi]

theorem StmtForm.word_eq {form : StmtForm ρ} (h : ∀ p ∈ form.parts, p.Small) :
    form.word = form := by
  cases form with
  | expr i => rw [word, Id.word_eq (h _ (List.mem_singleton_self _))]
  | declaration m b i? | returnStmt i? => rw [word, map_word_eq h]
  | ifStmt r b? e? =>
    obtain ⟨hr, hrest⟩ := List.forall_mem_cons.mp h
    obtain ⟨hb, he⟩ := List.forall_mem_append.mp hrest
    rw [word, Slots.word_eq hr, map_blockWord_eq hb, map_elseWord_eq he]
  | guardStmt r b? | whileStmt r b? =>
    obtain ⟨hr, hb⟩ := List.forall_mem_cons.mp h
    rw [word, Slots.word_eq hr, map_blockWord_eq hb]

theorem Store.words_eq {f : α → α} {st : Store s α} (hnodes : ∀ node ∈ st.nodes, f node = node)
    (hlists : ∀ i ∈ st.lists, i.word = i) : st.words f = st := by
  have hn : st.nodes.map f = st.nodes := by
    rw [Array.map_congr_left hnodes, Array.map_id']
  have hl : st.lists.map Id.word = st.lists := by
    rw [Array.map_congr_left hlists, Array.map_id']
  rw [words, hn, hl]

end Small

/-! ## 2. Small forests -/

namespace Arena

variable {ρ : Type} {a : Arena ρ}

theorem stop_le_capacity {s : NodeSort} {r : Slots s} {is : List (Id s)}
    (h : a.list? r = some is) : r.start + r.length ≤ a.capacity s := by
  have hstore : ∀ {α : Type} {st : Store s α}, st.list? r = some is →
      r.start + r.length ≤ st.lists.size := by
    intro α st hst
    unfold Store.list? at hst
    split at hst
    · assumption
    · cases hst
  cases s <;> exact hstore h

theorem NamesAll.small {ps : List Part} {xs : List Ref} (h : a.NamesAll ps xs)
    (hxs : ∀ x ∈ xs, x.index < UInt32.size) (hcapacity : ∀ s, a.capacity s < UInt32.size) :
    ∀ p ∈ ps, p.Small := by
  induction ps generalizing xs with
  | nil => exact fun p hp => absurd hp List.not_mem_nil
  | cons p ps ih =>
    obtain ⟨ys, zs, hp, hps, rfl⟩ := h
    obtain ⟨hys, hzs⟩ := List.forall_mem_append.mp hxs
    refine List.forall_mem_cons.mpr ⟨?_, ih hps hzs⟩
    cases p with
    | list r =>
      obtain ⟨is, hr, -⟩ := hp
      exact Nat.lt_of_le_of_lt (stop_le_capacity hr) (hcapacity _)
    | one x | elseIf i =>
      obtain rfl := hp
      exact hys _ (List.mem_singleton_self _)

/-- The parts of a node are known under its id. -/
theorem parts?_of_mem {p : Part} (h : p ∈ a.parts) :
    ∃ x ps, x.index < a.count x.sort ∧ a.parts? x = some ps ∧ p ∈ ps := by
  have hfound : ∀ {s : NodeSort} {α : Type} {st : Store s α} {parts : α → List Part},
      p ∈ st.nodes.toList.flatMap parts →
      ∃ k, k < st.nodes.size ∧ ∃ node, st.get? ⟨k⟩ = some node ∧ p ∈ parts node := by
    intro s α st parts hp
    obtain ⟨node, hnode, hp⟩ := List.mem_flatMap.mp hp
    obtain ⟨k, hk, rfl⟩ := Array.mem_iff_getElem.mp (Array.mem_toList_iff.mp hnode)
    exact ⟨k, hk, _, Array.getElem?_eq_getElem hk, hp⟩
  rcases List.mem_append.mp h with h | h
  · obtain ⟨k, hk, node, hnode, hp⟩ := hfound h
    exact ⟨⟨.expr, k⟩, _, hk, congrArg (Option.map _) hnode, hp⟩
  rcases List.mem_append.mp h with h | h
  · obtain ⟨k, hk, node, hnode, hp⟩ := hfound h
    exact ⟨⟨.stmt, k⟩, _, hk, congrArg (Option.map _) hnode, hp⟩
  · obtain ⟨k, hk, node, hnode, hp⟩ := hfound h
    exact ⟨⟨.clause, k⟩, _, hk, congrArg (Option.map _) hnode, hp⟩

section Sizes

variable {roots : List Part} (h : a.Forest roots) (hcount : ∀ s, a.count s < UInt32.size)
variable (hcapacity : ∀ s, a.capacity s < UInt32.size)

include h hcount

theorem Forest.index_small {x : Ref}
    (hx : x ∈ (roots ++ a.parts).flatMap Part.direct ++ a.listed) : x.index < UInt32.size :=
  Nat.lt_trans (h.index_lt hx) (hcount _)

theorem Forest.listed_small : ∀ x ∈ a.listed, x.index < UInt32.size :=
  fun _ hx => h.index_small hcount (List.mem_append_right _ hx)

include hcapacity

theorem Forest.roots_small : ∀ p ∈ roots, p.Small := by
  obtain ⟨xs, -, hxs, -⟩ := h.postOrder
  refine hxs.small (fun x hx => h.index_small hcount ?_) hcapacity
  rcases List.mem_append.mp (hxs.mem hx) with hdirect | hlisted
  · rw [List.flatMap_append]
    exact List.mem_append_left _ (List.mem_append_left _ hdirect)
  · exact List.mem_append_right _ hlisted

theorem Forest.parts_small : ∀ p ∈ a.parts, p.Small := by
  intro p hp
  obtain ⟨x, ps, hx, hps, hp⟩ := parts?_of_mem hp
  obtain ⟨ps', cs, hps', hcs, hsmaller⟩ := h.children x hx
  obtain rfl := Option.some.inj (hps.symm.trans hps')
  exact hcs.small (fun c hc => Nat.lt_trans (hsmaller c hc).1 (hcount _)) hcapacity p hp

/-- **In a small forest no id is cut off.** -/
theorem Forest.words_eq : a.words = a := by
  have hparts := h.parts_small hcount hcapacity
  have hlisted := h.listed_small hcount
  unfold parts at hparts
  unfold listed at hlisted
  simp only [List.forall_mem_append, List.forall_mem_map, List.mem_flatMap,
    forall_exists_index, and_imp, Array.mem_toList_iff] at hparts hlisted
  obtain ⟨hexprs, hstmts, hclauses⟩ := hparts
  obtain ⟨hexprIds, hstmtIds, hclauseIds⟩ := hlisted
  have hexpr : a.exprs.words ExprNode.word = a.exprs := by
    refine Store.words_eq (fun node hnode => ?_) fun i hi => Id.word_eq (hexprIds i hi)
    rw [ExprNode.word, ExprForm.word_eq fun p hp => hexprs p node hnode hp]
  have hstmt : a.stmts.words StmtNode.word = a.stmts := by
    refine Store.words_eq (fun node hnode => ?_) fun i hi => Id.word_eq (hstmtIds i hi)
    rw [StmtNode.word, StmtForm.word_eq fun p hp => hstmts p node hnode hp]
  have hclause : a.clauses.words ClauseNode.word = a.clauses := by
    refine Store.words_eq (fun node hnode => ?_) fun i hi => Id.word_eq (hclauseIds i hi)
    rw [ClauseNode.word, ClauseForm.word_eq fun p hp => hclauses p node hnode hp]
  rw [words, hexpr, hstmt, hclause]

end Sizes

end Arena

/-! ## 3. Outcomes -/

theorem Session.words_start (tokens : List (Token String)) (text : String) (limit : Nat) :
    (start tokens text limit).words = start tokens text limit := by
  simp [words, start, Arena.words, Store.words]

/-- **A module is built** as it is read and laid out, with words for all ids. -/
theorem Builder.module_words (s : Session) :
    Builder.module s.words = Prod.map Slots.word Session.words s.module := by
  have hbuild : s.module = s.build Stmt.planModule Parser.topLevel := by
    rw [Session.build, Session.follow, ← Stmt.layoutModule_plans]
    rfl
  rw [hbuild]
  exact builds_iff.mp (builds_module s.input) s rfl

namespace Outcome

section Words

variable (o : Outcome)

@[simp] theorem module_words : o.words.module = o.module.word := rfl

@[simp] theorem arena_words : o.words.arena = o.arena.words := rfl

@[simp] theorem diagnostics_words : o.words.diagnostics = o.diagnostics := rfl

end Words

/-- **A source that is built** comes to what is read of it, with words for all ids. -/
theorem built_eq_words (source : String) (limit : Nat) :
    built source limit = (ofSource source limit).words := by
  have hbuilt := Builder.module_words (Session.start (Token.ofSource source) source limit)
  rw [Session.words_start] at hbuilt
  rw [built, hbuilt]
  rfl

/-- **A limit does not change what is built,** although the builder asks the sink for its count of
errors on the way.  It only cuts the diagnostics short. -/
theorem built_of_limit (source : String) {limit : Nat} (h : 1 ≤ limit) :
    (built source limit).module = (built source 0).module ∧
    (built source limit).arena = (built source 0).arena ∧
    (built source limit).diagnostics = (built source 0).diagnostics.take limit := by
  obtain ⟨hmodule, harena⟩ := tree_of_limit source h
  have hdiagnostics := diagnostics_of_limit source h
  simp only [built_eq_words, module_words, arena_words, diagnostics_words, hmodule, harena,
    hdiagnostics, and_self]

/-- **In a short source nothing is cut off.** -/
theorem words_ofSource {source : String} (h : 3 * Text.byteLength source.toList < UInt32.size)
    (limit : Nat) : (ofSource source limit).words = ofSource source limit := by
  have hforest := forest_ofSource source limit
  have hcount := count_lt_ofSource h limit
  have hcapacity := capacity_lt_ofSource h limit
  have hmodule := Slots.word_eq (hforest.roots_small hcount hcapacity _ (List.mem_singleton_self _))
  rw [words, hforest.words_eq hcount hcapacity, hmodule]

/-- **The arena of every outcome is a forest in post-order,** however malformed the source: the
module is the only root, all nodes hang under it, each named exactly once.  Without a bound on ids
this holds of every source.  An arena that is built while the source is read differs from that one
only in that its ids are words; where the source is so short that words suffice, it is a forest
itself. -/
theorem forest_built (source : String) (limit : Nat) :
    (ofSource source limit).arena.Forest [.list (ofSource source limit).module] ∧
    built source limit = (ofSource source limit).words ∧
    (3 * Text.byteLength source.toList < UInt32.size →
      (built source limit).arena.Forest [.list (built source limit).module]) := by
  have hforest := forest_ofSource source limit
  refine ⟨hforest, built_eq_words source limit, fun hshort => ?_⟩
  rw [built_eq_words, words_ofSource hshort]
  exact hforest

/-- An operand, an argument, a branch, a body and a value are missing, and neither the parenthesis
nor the second header is closed. -/
theorem forest_built_recovered :
    let source := "while - + f(1,, x) ? y\nif (a = let _ ="
    3 * Text.byteLength source.toList < UInt32.size ∧
    (built source 1).arena.Forest [.list (built source 1).module] ∧
    (built source 1).module = ⟨0, 2⟩ ∧ (built source 1).arena.exprs.size = 15 := by
  have hshort : 3 * Text.byteLength "while - + f(1,, x) ? y\nif (a = let _ =".toList <
      UInt32.size := by decide +kernel
  refine ⟨hshort, (forest_built _ 1).2.2 hshort, ?_, ?_⟩
  · rw [built_eq_words]
    decide +kernel
  · rw [built_eq_words]
    decide +kernel

end Outcome

end PlatformGate
