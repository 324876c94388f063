/-
# Places in a text below another

In a text below another, a run of tokens is further on by the tokens of the first, and its span by
the bytes (`Run.locate_below`).  So the trees and the diagnostics that the second text gives there
are its own, moved (`Stmt.locate_below`, `Report.toDiagnostic_below`): a message quotes the same
text.
-/
import PlatformGate.Proofs.Joining.Texts
import PlatformGate.Proofs.Joining.Shift
import PlatformGate.Proofs.Session.Calls

namespace PlatformGate

/-! ## 1. Trees moved twice -/

section Trees

variable {ρ σ σ' τ : Type} {f : ρ → σ} {g : σ → τ} {f' : ρ → σ'} {g' : σ' → τ}

namespace Expr

mutual

/-- Two ways to move an expression agree if they agree on all its places. -/
theorem map_map : ∀ e : Expr ρ, e.Everywhere (fun p => g (f p) = g' (f' p)) →
    map g (map f e) = map g' (map f' e)
  | int _ p, h | bool _ p, h | ident _ p, h | discard p, h | error p, h => by
    have hp : g (f p) = g' (f' p) := h
    simp only [map, hp]
  | paren e p, h | unary _ e p, h => by
    obtain ⟨he, hp⟩ := h
    simp only [map, map_map e he, hp]
  | tuple es p, h => by
    obtain ⟨hes, hp⟩ := h
    simp only [map, mapAll_mapAll es hes, hp]
  | call e es p, h => by
    obtain ⟨he, hes, hp⟩ := h
    simp only [map, map_map e he, mapAll_mapAll es hes, hp]
  | binary _ l r p, h | assign l r p, h => by
    obtain ⟨hl, hr, hp⟩ := h
    simp only [map, map_map l hl, map_map r hr, hp]
  | ternary c t e p, h => by
    obtain ⟨hc, ht, he, hp⟩ := h
    simp only [map, map_map c hc, map_map t ht, map_map e he, hp]

theorem mapAll_mapAll : ∀ es : List (Expr ρ), EverywhereAll (fun p => g (f p) = g' (f' p)) es →
    mapAll g (mapAll f es) = mapAll g' (mapAll f' es)
  | [], _ => rfl
  | e :: es, h => by
    obtain ⟨he, hes⟩ := h
    simp only [mapAll, map_map e he, mapAll_mapAll es hes]

end

theorem option_map_map {e? : Option (Expr ρ)}
    (h : ∀ e ∈ e?, e.Everywhere fun p => g (f p) = g' (f' p)) :
    (e?.map (map f)).map (map g) = (e?.map (map f')).map (map g') := by
  cases e? with
  | none => rfl
  | some e => exact congrArg some (map_map e (h e rfl))

end Expr

theorem Pattern.map_map {b : Pattern ρ} (h : g (f b.place) = g' (f' b.place)) :
    (b.map f).map g = (b.map f').map g' := by
  cases b with
  | wildcard p => exact congrArg Pattern.wildcard h
  | binding n p => exact congrArg (Pattern.binding n) h
  | missing p => exact congrArg Pattern.missing h

theorem Query.map_map {q : Query ρ} (h : q.Everywhere fun p => g (f p) = g' (f' p)) :
    (q.map f).map g = (q.map f').map g' := by
  have hentries : (q.entries.map (Entry.map f)).map (Entry.map g) =
      (q.entries.map (Entry.map f')).map (Entry.map g') := by
    rw [List.map_map, List.map_map]
    apply List.map_congr_left
    intro e he
    exact congrArg (Entry.mk e.name e.version e.wildcard) (h.2 e he)
  simp only [map, hentries, h.1]

theorem Clause.map_map {c : Clause ρ} (h : c.Everywhere fun p => g (f p) = g' (f' p)) :
    (c.map f).map g = (c.map f').map g' := by
  cases c with
  | expr e p => simp only [map, Expr.map_map e h.1, h.2]
  | binding m b init p =>
    obtain ⟨hb, hinit, hp⟩ := h
    simp only [map, Pattern.map_map hb, Expr.option_map_map hinit, hp]
  | matching e init p => simp only [map, Expr.map_map e h.1, Expr.map_map init h.2.1, h.2.2]
  | availability q => exact congrArg Clause.availability (Query.map_map h)

namespace Stmt

theorem map_clauses {cs : List (Clause ρ)}
    (h : ∀ c ∈ cs, c.Everywhere fun p => g (f p) = g' (f' p)) :
    (cs.map (Clause.map f)).map (Clause.map g) = (cs.map (Clause.map f')).map (Clause.map g') := by
  rw [List.map_map, List.map_map]
  apply List.map_congr_left
  intro c hc
  exact Clause.map_map (h c hc)

mutual

/-- **Two ways to move a statement agree if they agree on all its places.** -/
theorem map_map : ∀ s : Stmt ρ, s.Everywhere (fun p => g (f p) = g' (f' p)) →
    map g (map f s) = map g' (map f' s)
  | expr e p, h => by
    obtain ⟨he, hp⟩ := h
    simp only [map, Expr.map_map e he, hp]
  | declaration _ b init p, h => by
    obtain ⟨hb, hinit, hp⟩ := h
    simp only [map, Pattern.map_map hb, Expr.option_map_map hinit, hp]
  | ifStmt cs b a p, h => by
    obtain ⟨hcs, hb, ha, hp⟩ := h
    simp only [map, map_clauses hcs, mapBody_mapBody b hb, mapAlternative_mapAlternative a ha, hp]
  | guardStmt cs b p, h | whileStmt cs b p, h => by
    obtain ⟨hcs, hb, hp⟩ := h
    simp only [map, map_clauses hcs, mapBody_mapBody b hb, hp]
  | returnStmt e p, h => by
    obtain ⟨he, hp⟩ := h
    simp only [map, Expr.option_map_map he, hp]

theorem mapBody_mapBody : ∀ b : Body ρ, BodyEverywhere (fun p => g (f p) = g' (f' p)) b →
    mapBody g (mapBody f b) = mapBody g' (mapBody f' b)
  | .missing, _ => rfl
  | .block ss p, h => by
    obtain ⟨hss, hp⟩ := h
    simp only [mapBody, mapAll_mapAll ss hss, hp]

theorem mapAlternative_mapAlternative : ∀ a : Alternative ρ,
    AlternativeEverywhere (fun p => g (f p) = g' (f' p)) a →
      mapAlternative g (mapAlternative f a) = mapAlternative g' (mapAlternative f' a)
  | .body b, h => congrArg Alternative.body (mapBody_mapBody b h)
  | .elseIf s, h => congrArg Alternative.elseIf (map_map s h)

theorem mapAll_mapAll : ∀ ss : List (Stmt ρ), EverywhereAll (fun p => g (f p) = g' (f' p)) ss →
    mapAll g (mapAll f ss) = mapAll g' (mapAll f' ss)
  | [], _ => rfl
  | s :: ss, h => by
    obtain ⟨hs, hss⟩ := h
    simp only [mapAll, map_map s hs, mapAll_mapAll ss hss]

end

end Stmt

end Trees

/-! ## 2. Spans -/

section Below

variable {before after : String}

/-- The tokens of a text below another come behind those of the first. -/
theorem Token.getElem?_spans_below (before after : String) (i : Nat) :
    ((ofSource (before ++ "\n" ++ after)).map span)[i + (beforeEnd before).length]? =
      ((ofSource after).map span)[i]?.map (Span.shift (Text.byteLength before.toList + 1)) := by
  have hright : (beforeEnd before).length ≤ i + (beforeEnd before).length := Nat.le_add_left _ _
  rw [spans_below, List.getElem?_append_right (by rw [List.length_map]; exact hright),
    List.length_map, Nat.add_sub_cancel, List.getElem?_map]

theorem Run.locate_below (before : String) {r : Run} (h : r.Inside (Token.ofSource after).length) :
    (r.shift (Token.beforeEnd before).length).locate (before ++ "\n" ++ after) =
      (r.locate after).shift (Text.byteLength before.toList + 1) := by
  have hspan : ∀ {i : Nat}, i < (Token.ofSource after).length →
      (((Token.ofSource (before ++ "\n" ++ after)).map Token.span)[i +
          (Token.beforeEnd before).length]?.getD Span.dummy) =
        (((Token.ofSource after).map Token.span)[i]?.getD Span.dummy).shift
          (Text.byteLength before.toList + 1) := by
    intro i hi
    rw [Token.getElem?_spans_below, List.getElem?_eq_getElem (by rw [List.length_map]; exact hi)]
    rfl
  obtain ⟨hfirst, hpast⟩ := h
  unfold locate toSpan
  simp only [List.getElem?_toArray, shift, Nat.add_lt_add_iff_right]
  split
  · rename_i hlt
    have hlast : r.past + (Token.beforeEnd before).length - 1 =
        r.past - 1 + (Token.beforeEnd before).length := by omega
    rw [hlast, hspan hfirst, hspan (by omega)]
    rfl
  · rw [hspan hfirst]
    rfl

/-- A run that begins no later than a token has a span that begins no later. -/
theorem Run.start_locate_le {source : String} {r : Run} {n : Nat} {t : Token String}
    (ht : (Token.beforeEnd source)[n]? = some t) (h : r.first ≤ n) :
    (r.locate source).start ≤ t.span.start := by
  obtain ⟨eof, heq, -⟩ := Token.ofSource_eq_append source
  have hn := (List.getElem?_eq_some_iff.mp ht).1
  have hfirst : r.first < (Token.beforeEnd source).length := Nat.lt_of_le_of_lt h hn
  have hget := List.getElem?_eq_getElem hfirst
  have hstart : (r.locate source).start = (Token.beforeEnd source)[r.first].span.start := by
    have hsource : (Token.ofSource source)[r.first]? = some (Token.beforeEnd source)[r.first] := by
      rw [heq, List.getElem?_append_left hfirst, hget]
    unfold locate toSpan
    simp only [List.getElem?_toArray, List.getElem?_map, hsource, Option.map_some,
      Option.getD_some]
    split <;> rfl
  rw [hstart]
  exact ((Token.inOrder_beforeEnd source).le_iff hget ht).1.mpr h

/-- The first token of a text below another, if it is not the end of file. -/
theorem Token.first_below (before : String) {first : Token String}
    (hfirst : (ofSource after).head? = some first) (hkind : first.kind ≠ .endOfFile) :
    ∃ u, (beforeEnd (before ++ "\n" ++ after))[(beforeEnd before).length]? = some u ∧
      u.span = first.span.shift (Text.byteLength before.toList + 1) := by
  obtain ⟨t, u, us, hafter, hjoined, hkinds, hspan, -, -⟩ := ofSource_below before after
  rw [hafter] at hfirst
  obtain rfl := Option.some.inj hfirst
  have hu : (u.kind != .endOfFile) = true := bne_iff_ne.mpr (hkinds ▸ hkind)
  have hsolid : (beforeEnd before).filter (fun t => t.kind != .endOfFile) = beforeEnd before :=
    List.filter_eq_self.mpr fun t ht => (List.mem_filter.mp ht).2
  refine ⟨u, ?_, hspan⟩
  have hbefore : beforeEnd (before ++ "\n" ++ after) = beforeEnd before ++
      u :: (us.map (shift (Text.byteLength before.toList + 1))).filter
        fun t => t.kind != .endOfFile := by
    rw [beforeEnd, hjoined, List.filter_append, hsolid, List.filter_cons_of_pos (by exact hu)]
  rw [hbefore, List.getElem?_append_right (Nat.le_refl _), Nat.sub_self]
  rfl

/-! ## 3. Statements and diagnostics -/

/-- The statements that a text gives below another are its own, further on. -/
theorem Stmt.locate_below {ss : List (Stmt Run)}
    (h : ∀ s ∈ ss, s.Everywhere (Run.Inside (Token.ofSource after).length)) :
    mapAll (Run.locate (before ++ "\n" ++ after))
        (ss.map (shift (Token.beforeEnd before).length)) =
      mapAll (Span.shift (Text.byteLength before.toList + 1)) (mapAll (Run.locate after) ss) := by
  unfold shift
  rw [← mapAll_eq_map]
  apply mapAll_mapAll
  rw [everywhereAll_iff]
  intro s hs
  exact Everywhere.mono (fun _ hp => Run.locate_below before hp) s (h s hs)

/-- The note further on by some bytes. -/
def Note.shift (k : Nat) (n : Note) : Note := ⟨n.message, n.span.shift k⟩

/-- The diagnostic further on by some bytes, with its notes. -/
def Diagnostic.shift (k : Nat) (d : Diagnostic) : Diagnostic :=
  { d with span := d.span.shift k, notes := d.notes.map (Note.shift k) }

theorem Text.slice?_shift (before after : String) (s : Span) :
    slice? (before ++ "\n" ++ after) (s.shift (byteLength before.toList + 1)).start
        (s.shift (byteLength before.toList + 1)).stop =
      slice? after s.start s.stop := by
  have hlength : byteLength (before ++ "\n").toList = byteLength before.toList + 1 := by
    rw [String.toList_append, byteLength_append]
    rfl
  have hslice := slice?_below (before ++ "\n") after s.start s.stop
  rw [hlength] at hslice
  exact hslice

/-- **A report says the same below another text,** further on. -/
theorem Report.toDiagnostic_below {r : Report Run} (h : r.Inside (Token.ofSource after).length) :
    ((r.map (Run.shift (Token.beforeEnd before).length)).map
        (Run.locate (before ++ "\n" ++ after))).toDiagnostic (before ++ "\n" ++ after) =
      ((r.map (Run.locate after)).toDiagnostic after).shift
        (Text.byteLength before.toList + 1) := by
  obtain ⟨hplace, hnote⟩ := h
  simp only [Report.map, toDiagnostic, Diagnostic.shift, Cause.code_map, Cause.message_map,
    Cause.note?_map, Run.locate_below before hplace, Text.slice?_shift]
  cases hcause : r.cause.note? with
  | none => rfl
  | some n =>
    have hlocate := Run.locate_below before (hnote n hcause)
    simp only [Option.map_some, Option.toList_some, List.map_cons, List.map_nil, Prod.map, hlocate,
      Note.shift, id]

end Below

end PlatformGate
