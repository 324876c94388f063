/-
# What is quoted of a source

A message quotes the text of a run of tokens.  Each token covers the text of its lexeme, and between
the tokens stand white space and comments; so the text of a run begins with the text of its first
token, which for a token of fixed spelling is that spelling.
-/
import PlatformGate.Proofs.Joining.Texts
import PlatformGate.Proofs.Token.Spans

namespace PlatformGate

namespace Text

variable {cs ds es : List Char}

/-- Of two beginnings of a text the one with fewer bytes is the shorter one. -/
theorem prefix_of_byteLength_le (hd : ds <+: cs) (he : es <+: cs)
    (h : byteLength ds ≤ byteLength es) : ds <+: es := by
  rcases List.prefix_or_prefix_of_prefix hd he with hde | hed
  · exact hde
  · obtain ⟨more, rfl⟩ := hed
    rw [byteLength_append] at h
    cases more with
    | nil => exact (List.append_nil es).symm ▸ List.prefix_refl es
    | cons c more =>
      have := Char.utf8Size_pos c
      rw [byteLength_cons] at h
      omega

/-- The slice between two beginnings of a text is what the longer one has more. -/
theorem slice?_between {text : String} {kept : List Char} (h : ds ++ kept <+: text.toList) :
    slice? text (byteLength ds) (byteLength (ds ++ kept)) = some (String.ofList kept) := by
  obtain ⟨after, heq⟩ := h
  have hslice := slice?_append ds kept after
  rwa [heq, String.ofList_toList, ← byteLength_append] at hslice

end Text

/-- A lexeme of a fixed kind is written as that kind is spelled. -/
theorem Lexeme.text_of_fixed {l : Lexeme} {f : Fixed} (h : l.kind = .fixed f) :
    l.text = f.spelling.toList := by
  unfold kind at h
  split at h
  · rename_i g hg
    obtain rfl : g = f := Kind.fixed.inj h
    rw [Fixed.ofSpelling?_eq_some_iff.mp hg, String.toList_ofList]
  · split at h
    · exact absurd h nofun
    · exact absurd h nofun
    · unfold numberKind at h
      split at h <;> exact absurd h nofun
    · exact absurd h nofun

namespace Token

/-- The token covers the characters behind `ds` that are its text. -/
structure Spells (source : String) (t : Token String) (ds text : List Char) : Prop where
  stands : ds ++ text <+: source.toList
  start : t.span.start = Text.byteLength ds
  stop : t.span.stop = Text.byteLength (ds ++ text)
  fixed : ∀ f, t.kind = .fixed f → text = f.spelling.toList

/-- Every token but the end of file covers the text of a lexeme. -/
theorem spells_ofLexemes {ls : List Lexeme} {offset : Nat} {pending : Layout} {t : Token String}
    (ht : t ∈ ofLexemes offset pending ls) (hkind : t.kind ≠ .endOfFile) :
    ∃ ds text, ds ++ text <+: ls.flatMap Lexeme.text ∧
      t.span.start = offset + Text.byteLength ds ∧
      t.span.stop = offset + Text.byteLength (ds ++ text) ∧
      ∀ f, t.kind = .fixed f → text = f.spelling.toList := by
  induction ls generalizing offset pending with
  | nil =>
    obtain rfl := List.mem_singleton.mp ht
    exact absurd rfl hkind
  | cons l ls ih =>
    have hmore : ∀ {pending : Layout}, t ∈ ofLexemes (offset + Text.byteLength l.text) pending ls →
        ∃ ds text, ds ++ text <+: (l :: ls).flatMap Lexeme.text ∧
          t.span.start = offset + Text.byteLength ds ∧
          t.span.stop = offset + Text.byteLength (ds ++ text) ∧
          ∀ f, t.kind = .fixed f → text = f.spelling.toList := by
      intro pending ht
      obtain ⟨ds, text, hstands, hstart, hstop, hfixed⟩ := ih ht
      refine ⟨l.text ++ ds, text, ?_, ?_, ?_, hfixed⟩
      · rw [List.flatMap_cons, List.append_assoc]
        exact (List.prefix_append_right_inj _).mpr hstands
      · rw [hstart, Text.byteLength_append, Nat.add_assoc]
      · rw [hstop, List.append_assoc, Text.byteLength_append l.text, Nat.add_assoc]
    rw [ofLexemes] at ht
    cases hmark : l.shape.mark? with
    | some mark =>
      rw [hmark] at ht
      exact hmore ht
    | none =>
      rw [hmark] at ht
      rcases List.mem_cons.mp ht with rfl | ht
      · refine ⟨[], l.text, List.prefix_append _ _, rfl, rfl, fun f hf => Lexeme.text_of_fixed hf⟩
      · exact hmore ht

/-- **Every token stands in the source,** with its spelling if that is fixed. -/
theorem spells_beforeEnd {source : String} {t : Token String} (ht : t ∈ beforeEnd source) :
    ∃ ds text, Spells source t ds text := by
  obtain ⟨hmem, hkind⟩ := List.mem_filter.mp ht
  obtain ⟨ds, text, hstands, hstart, hstop, hfixed⟩ :=
    spells_ofLexemes hmem (bne_iff_ne.mp hkind)
  rw [Lexeme.flatMap_text_scan] at hstands
  rw [Nat.zero_add] at hstart hstop
  exact ⟨ds, text, hstands, hstart, hstop, hfixed⟩

/-- The end of file stands behind the text. -/
theorem ofSource_eq_append_point (source : String) :
    ∃ layout, ofSource source =
      beforeEnd source ++ [⟨.endOfFile, Span.point (Text.byteLength source.toList), layout⟩] := by
  obtain ⟨ts, layout, heq, -⟩ := ofLexemes_append 0 Layout.atLineStart (Lexeme.scan source.toList)
  rw [Lexeme.flatMap_text_scan, Nat.zero_add] at heq
  obtain ⟨t, heq', -⟩ := ofSource_eq_append source
  refine ⟨layout, ?_⟩
  rw [show ofSource source = _ from heq]
  rw [← (List.append_inj' (heq'.symm.trans heq) rfl).1]

end Token

section Located

variable {source : String} {r : Run} {t : Token String}

/-- **A quotation begins with its first token.** -/
theorem Run.slice?_locate (h : r.Solid (Token.beforeEnd source).length)
    (ht : (Token.beforeEnd source)[r.first]? = some t) {f : Fixed} (hkind : t.kind = .fixed f) :
    ∃ quoted, Text.slice? source (r.locate source).start (r.locate source).stop = some quoted ∧
      f.spelling.toList <+: quoted.toList := by
  obtain ⟨first, last, hfirst, hlast, heq⟩ := h.exists_tokens
  obtain rfl : first = t := Option.some.inj (hfirst.symm.trans ht)
  obtain ⟨ds, text, hspells⟩ := Token.spells_beforeEnd (List.mem_of_getElem? hfirst)
  obtain ⟨es, text', hspells'⟩ := Token.spells_beforeEnd (List.mem_of_getElem? hlast)
  have hle : Text.byteLength (ds ++ text) ≤ Text.byteLength (es ++ text') := by
    have hlt := h.1
    rw [← hspells.stop, ← hspells'.stop]
    exact ((Token.inOrder_beforeEnd source).le_iff hfirst hlast).2.mpr (by omega)
  obtain ⟨more, hmore⟩ := Text.prefix_of_byteLength_le hspells.stands hspells'.stands hle
  refine ⟨String.ofList (text ++ more), ?_, ?_⟩
  · rw [heq, hspells.start, hspells'.stop, ← hmore, List.append_assoc]
    refine Text.slice?_between ?_
    rw [← List.append_assoc, hmore]
    exact hspells'.stands
  · rw [String.toList_ofList, hspells.fixed f hkind]
    exact List.prefix_append _ _

end Located

end PlatformGate
