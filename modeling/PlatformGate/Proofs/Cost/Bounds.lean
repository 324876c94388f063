/-
# However malformed, a source makes no more than its tokens pay for

Prices can be chosen freely.  With a price on one thing and nothing else, the account of a source
(`Outcome.paid_ofSource`) says how many of that thing there can be: two reports, three expressions,
a statement and a clause for each token.

Indexes into an arena are kept in words of 32 bits.  A token is at least one byte long, and a list
storage is no longer than there are nodes; so a source that is short enough fills no storage past
what a word can count, and no index that is given out on the way is cut off (`Store.Exact`).
-/
import PlatformGate.Proofs.Cost.Lines
import PlatformGate.Proofs.Cost.Arenas
import PlatformGate.Proofs.Token.Bounds
import PlatformGate.Proofs.Report.Emit

namespace PlatformGate

/-! ## 1. Tokens and bytes -/

namespace Token

/-- Between two places there are no more tokens than bytes. -/
theorem InOrder.length_add_le {ν : Type} {ts : List (Token ν)} (h : InOrder ts) {m n : Nat}
    (hmn : m ≤ n) (hin : ∀ t ∈ ts, m ≤ t.span.start ∧ t.span.stop ≤ n) : ts.length + m ≤ n := by
  induction ts generalizing m with
  | nil => simpa using hmn
  | cons t ts ih =>
    obtain ⟨hstart, hstop⟩ := hin t List.mem_cons_self
    have hsolid := h.solid t List.mem_cons_self
    obtain ⟨hbehind, hapart⟩ := List.pairwise_cons.mp h.apart
    have htail : InOrder ts := ⟨hapart, fun u hu => h.solid u (List.mem_cons_of_mem t hu)⟩
    have hrest := ih htail hstop fun u hu =>
      ⟨hbehind u hu, (hin u (List.mem_cons_of_mem t hu)).2⟩
    rw [List.length_cons]
    omega

/-- **A source has no more tokens than bytes.** -/
theorem length_beforeEnd_le (source : String) :
    (beforeEnd source).length ≤ Text.byteLength source.toList := by
  refine (inOrder_beforeEnd source).length_add_le (Nat.zero_le _) fun t ht => ?_
  exact ⟨Nat.zero_le _, (cuts_ofSource (List.mem_filter.mp ht).1).inside⟩

end Token

/-! ## 2. Indexes -/

namespace Store

variable {s : NodeSort} {α : Type} {st st' : Store s α}

theorem toNat_nextIndex {n : Nat} (h : n < UInt32.size) : (nextIndex n).toNat = n :=
  UInt32.toNat_ofNat_of_lt' h

/-- The difference of the two ends of a list is its length. -/
theorem toNat_nextIndex_sub {start n : Nat} (h : start + n < UInt32.size) :
    (nextIndex (start + n) - nextIndex start).toNat = n := by
  have hstart := toNat_nextIndex (n := start) (by omega)
  have hstop := toNat_nextIndex h
  rw [UInt32.toNat_sub_of_le _ _ (by rw [UInt32.le_iff_toNat_le]; omega), hstart, hstop]
  exact Nat.add_sub_cancel_left start n

/-- The first number that does not fit is cut off to nothing. -/
example : (nextIndex UInt32.size).toNat = 0 := by decide

/-- A store that grows gets no shorter. -/
theorem Grows.size_le (h : st.Grows st') :
    st.nodes.size ≤ st'.nodes.size ∧ st.lists.size ≤ st'.lists.size := by
  constructor
  · by_cases hempty : st.nodes.size = 0
    · omega
    · have hlast : st.nodes.size - 1 < st.nodes.size := by omega
      have hget := h.get ⟨st.nodes.size - 1⟩ _ (Array.getElem?_eq_getElem hlast)
      have hlt := (Array.getElem?_eq_some_iff.mp hget).1
      dsimp only at hlt
      omega
  · have hall : st.list? ⟨0, st.lists.size⟩ =
        some (st.lists.extract 0 (0 + st.lists.size)).toList := if_pos (by dsimp only; omega)
    have hlist := h.list _ _ hall
    unfold list? at hlist
    split at hlist
    · dsimp only at *
      omega
    · cases hlist

/-- **No index is cut off** that was given out on the way to this store: as a machine word, every id
and every place of a list is the number that it stands for. -/
structure Exact (st : Store s α) : Prop where
  ids : ∀ (before : Store s α) (node : α), (before.add node).2.Grows st →
    before.nextId.toNat = (before.add node).1.index
  slots : ∀ (before : Store s α) (ids : List (Id s)), (before.addList ids).2.Grows st →
    (before.nextSlots ids).1.toNat = (before.addList ids).1.start ∧
      (before.nextSlots ids).2.toNat = (before.addList ids).1.length

theorem exact_of_lt (hnodes : st.nodes.size < UInt32.size) (hlists : st.lists.size < UInt32.size) :
    st.Exact where
  ids before node h := by
    have hsize : (before.add node).2.nodes.size = before.nodes.size + 1 := Array.size_push _
    have hle := h.size_le.1
    exact toNat_nextIndex (by omega)
  slots before ids h := by
    have hsize : (before.addList ids).2.lists.size = before.lists.size + ids.length := by
      simp only [addList, Array.size_append, List.size_toArray]
    have hle := h.size_le.2
    exact ⟨toNat_nextIndex (by omega), toNat_nextIndex_sub (by omega)⟩

end Store

/-! ## 3. Outcomes -/

namespace Sink

/-- Every error is either kept or counted as not kept. -/
theorem length_add_suppressed_emitAll (s : Sink) (ds : List Diagnostic) :
    (s.emitAll ds).stored.length + (s.emitAll ds).suppressed =
      s.stored.length + s.suppressed + ds.length := by
  induction ds generalizing s with
  | nil => rfl
  | cons d ds ih =>
    have hemit : (s.emit d).stored.length + (s.emit d).suppressed =
        s.stored.length + s.suppressed + 1 := by
      unfold emit
      split
      · rfl
      · dsimp only
        rw [List.length_append, List.length_singleton]
        omega
    rw [emitAll_cons, ih, hemit, List.length_cons]
    omega

end Sink

namespace Outcome

/-- How many errors there are: those that were kept and those that were not. -/
def errorCount (o : Outcome) : Nat := o.diagnostics.length + o.suppressed

/-- What is reported to the sink are the reports of the top level, whatever the limit. -/
theorem errorCount_ofSource (source : String) (limit : Nat) :
    (ofSource source limit).errorCount = (Parser.topLevel
      (Input.start (Terminal.ofTokens (Token.ofSource source)))).reports.length := by
  have hcount := Sink.length_add_suppressed_emitAll (Sink.withLimit limit)
  refine (hcount _).trans ?_
  rw [List.length_map]
  exact Nat.zero_add _

/-- **The tokens of a source pay for its errors and for its arena,** at any prices. -/
theorem paid_ofSource (t : Tariff) (source : String) (limit : Nat) :
    t.report * (ofSource source limit).errorCount + (ofSource source limit).arena.worth t ≤
      t.token * (Token.beforeEnd source).length := by
  have hpays := (Parser.topLevel_pays t
    (Input.start (Terminal.ofTokens (Token.ofSource source)))).paid
  have hworth : (ofSource source limit).arena.worth t = Stmt.costAll t
      (Parser.topLevel (Input.start (Terminal.ofTokens (Token.ofSource source)))).value :=
    (Stmt.layoutModule_costs _).trans (Stmt.costAll_mapAll _ _)
  have hfund : t.fund (Input.start (Terminal.ofTokens (Token.ofSource source))) =
      t.token * (Token.beforeEnd source).length := by
    unfold Tariff.fund Input.start
    rw [Token.terminals_ofSource, List.length_map]
  rw [errorCount_ofSource, hworth]
  unfold Tariff.bill at hpays
  omega

/-- Every node of an outcome hangs under its module, and none stands in two lists. -/
theorem capacity_le_ofSource (source : String) (limit : Nat) (s : NodeSort) :
    (ofSource source limit).arena.capacity s ≤ (ofSource source limit).arena.count s :=
  (forest_ofSource source limit).capacity_le s

section Sizes

variable (source : String) (limit : Nat)

theorem errorCount_le :
    (ofSource source limit).errorCount ≤ 2 * (Token.beforeEnd source).length := by
  simpa [Tariff.token, Arena.worth] using paid_ofSource ⟨1, 0, 0, 0⟩ source limit

theorem size_exprs_le :
    (ofSource source limit).arena.exprs.size ≤ 3 * (Token.beforeEnd source).length := by
  simpa [Tariff.token, Arena.worth] using paid_ofSource ⟨0, 1, 0, 0⟩ source limit

theorem size_stmts_le :
    (ofSource source limit).arena.stmts.size ≤ (Token.beforeEnd source).length := by
  simpa [Tariff.token, Arena.worth] using paid_ofSource ⟨0, 0, 1, 0⟩ source limit

theorem size_clauses_le :
    (ofSource source limit).arena.clauses.size ≤ (Token.beforeEnd source).length := by
  simpa [Tariff.token, Arena.worth] using paid_ofSource ⟨0, 0, 0, 1⟩ source limit

end Sizes

section Short

variable {source : String} (h : 3 * Text.byteLength source.toList < UInt32.size) (limit : Nat)

include h

/-- In a short source there are no more nodes of a sort than a word can count. -/
theorem count_lt_ofSource (s : NodeSort) :
    (ofSource source limit).arena.count s < UInt32.size := by
  have hbytes := Token.length_beforeEnd_le source
  cases s
  · exact Nat.lt_of_le_of_lt (size_exprs_le source limit) (by omega)
  · exact Nat.lt_of_le_of_lt (size_stmts_le source limit) (by omega)
  · exact Nat.lt_of_le_of_lt (size_clauses_le source limit) (by omega)

theorem capacity_lt_ofSource (s : NodeSort) :
    (ofSource source limit).arena.capacity s < UInt32.size :=
  Nat.lt_of_le_of_lt (capacity_le_ofSource source limit s) (count_lt_ofSource h limit s)

/-- **In a short source no index is cut off.** -/
theorem exact_ofSource :
    (ofSource source limit).arena.exprs.Exact ∧ (ofSource source limit).arena.stmts.Exact ∧
      (ofSource source limit).arena.clauses.Exact := by
  have hcount := count_lt_ofSource h limit
  have hcapacity := capacity_lt_ofSource h limit
  exact ⟨Store.exact_of_lt (hcount .expr) (hcapacity .expr),
    Store.exact_of_lt (hcount .stmt) (hcapacity .stmt),
    Store.exact_of_lt (hcount .clause) (hcapacity .clause)⟩

end Short

/-- **Errors and nodes are bounded by tokens.**  However malformed a source, it gives no more than
two errors, three expressions, a statement and a clause for each token in front of the end of file,
under any limit; so if it is short enough, no index into its arena is cut off. -/
theorem bounded_by_tokens (source : String) (limit : Nat) :
    let o : Outcome := ofSource source limit
    let n := ((Token.ofSource source).filter fun t => t.kind != .endOfFile).length
    o.diagnostics.length + o.suppressed ≤ 2 * n ∧
    o.arena.exprs.size ≤ 3 * n ∧ o.arena.stmts.size ≤ n ∧ o.arena.clauses.size ≤ n ∧
    (3 * Text.byteLength source.toList < UInt32.size →
      o.arena.exprs.Exact ∧ o.arena.stmts.Exact ∧ o.arena.clauses.Exact) := by
  refine ⟨errorCount_le source limit, size_exprs_le source limit, size_stmts_le source limit,
    size_clauses_le source limit, ?_⟩
  exact fun hshort => exact_ofSource hshort limit

/-- A lone `if` reaches the bounds on errors, statements and clauses: its condition is missing and
its body, one of the errors is not kept, and the arena holds the `if` and a clause whose value is a
placeholder. -/
theorem bounded_by_tokens_if :
    let o : Outcome := ofSource "if" 1
    let n := ((Token.ofSource "if").filter fun t => t.kind != .endOfFile).length
    n = 1 ∧ o.diagnostics.length = 1 ∧ o.suppressed = 1 ∧ o.arena.exprs.size ≤ 3 * n ∧
    o.arena.stmts.size = n ∧ o.arena.clauses.size = n ∧
    3 * Text.byteLength "if".toList < UInt32.size ∧
    o.arena.exprs.Exact ∧ o.arena.stmts.Exact ∧ o.arena.clauses.Exact := by
  have hbounds := bounded_by_tokens "if" 1
  have hshort : 3 * Text.byteLength "if".toList < UInt32.size := by decide +kernel
  exact ⟨by decide +kernel, by decide +kernel, by decide +kernel, hbounds.2.1, by decide +kernel,
    by decide +kernel, hshort, hbounds.2.2.2.2 hshort⟩

end Outcome

end PlatformGate
