/-
# What stands between tokens

Tokens and fillers together make up the source.  A filler is a blank, a newline or a comment, and a
comment runs to the end of its line; so there is only one way to cut a gap into fillers
(`Filler.unique`), and the four marks of a layout say which fillers the gap in front of a token
holds (`Layout.Tells`).

`Token.Laid` writes down how a text lies as tokens: a gap, then a whole lexeme that is a token, and
so on to the end of file.  It is all that later modules know about the tokens of a source, and
`Token.laid_ofSource` is the only place where reading the tokens off the lexemes is looked into.
-/
import PlatformGate.Proofs.Lexing.Rules
import PlatformGate.Proofs.Token.Bounds

namespace PlatformGate

/-! ## 1. Fillers -/

/-- A piece of what stands between two tokens.  A comment does not hold the newline behind it. -/
inductive Filler
  | blank (c : Char) (h : Shape.isBlank c = true)
  | newline
  | comment (more : List Char) (h : '\n' ∉ more)

namespace Filler

def text : Filler → List Char
  | blank c _ => [c]
  | newline => ['\n']
  | comment more _ => '/' :: '/' :: more

/-- The text of some fillers. -/
def textAll (fs : List Filler) : List Char := fs.flatMap text

@[simp] theorem textAll_nil : textAll [] = [] := rfl

@[simp] theorem textAll_cons (f : Filler) (fs : List Filler) :
    textAll (f :: fs) = f.text ++ textAll fs := List.flatMap_cons

@[simp] theorem textAll_append (fs gs : List Filler) :
    textAll (fs ++ gs) = textAll fs ++ textAll gs := List.flatMap_append

def isComment : Filler → Bool
  | comment .. => true
  | _ => false

/-- Every comment runs to the end of its line.  The text `rest` stands behind the fillers. -/
def EndLines (rest : List Char) : List Filler → Prop
  | [] => True
  | f :: fs => (f.isComment = true → ∀ c ∈ (textAll fs ++ rest).head?, c = '\n') ∧ EndLines rest fs

theorem EndLines.append {rest : List Char} {fs gs : List Filler}
    (hfs : EndLines (textAll gs ++ rest) fs) (hgs : EndLines rest gs) :
    EndLines rest (fs ++ gs) := by
  induction fs with
  | nil => exact hgs
  | cons f fs ih =>
    obtain ⟨hf, hfs⟩ := hfs
    have hf' : f.isComment = true → ∀ c ∈ (textAll (fs ++ gs) ++ rest).head?, c = '\n' := by
      rwa [textAll_append, List.append_assoc]
    exact ⟨hf', ih hfs⟩

theorem endLines_of_no_comment {rest : List Char} {fs : List Filler}
    (h : ∀ f ∈ fs, f.isComment = false) : EndLines rest fs := by
  induction fs with
  | nil => trivial
  | cons f fs ih =>
    obtain ⟨hf, hfs⟩ := List.forall_mem_cons.mp h
    exact ⟨fun hcomment => absurd (hf.symm.trans hcomment) Bool.false_ne_true, ih hfs⟩

/-- A comment is all that stands in front of the end of its line. -/
theorem takeWhile_comment {more rest : List Char} (h : '\n' ∉ more)
    (hrest : ∀ c ∈ rest.head?, c = '\n') : (more ++ rest).takeWhile (· != '\n') = more := by
  have hmore : ∀ c ∈ more, (c != '\n') = true :=
    fun c hc => bne_iff_ne.mpr fun heq => h (heq ▸ hc)
  have hstop : rest.takeWhile (· != '\n') = [] := by
    cases rest with
    | nil => rfl
    | cons c cs => rw [hrest c rfl]; rfl
  rw [List.takeWhile_append_of_pos hmore, hstop, List.append_nil]

/-- The first character. -/
def first : Filler → Char
  | blank c _ => c
  | newline => '\n'
  | comment .. => '/'

theorem exists_text (f : Filler) : ∃ more, f.text = f.first :: more := by
  cases f <;> exact ⟨_, rfl⟩

/-- Of fillers that are not alike, the first characters differ. -/
theorem alike_of_first {f g : Filler} (h : f.first = g.first) :
    f = g ∨ f.isComment = true ∧ g.isComment = true := by
  have hnewline : Shape.isBlank '\n' = false := by decide
  have hslash : Shape.isBlank '/' = false := by decide
  cases f with
  | blank c hc =>
    cases g with
    | blank d hd => obtain rfl : c = d := h; exact .inl rfl
    | newline => obtain rfl : c = '\n' := h; cases hc.symm.trans hnewline
    | comment => obtain rfl : c = '/' := h; cases hc.symm.trans hslash
  | newline =>
    cases g with
    | blank d hd => obtain rfl : '\n' = d := h; cases hd.symm.trans hnewline
    | newline => exact .inl rfl
    | comment => exact absurd (show '\n' = '/' from h) (by decide)
  | comment =>
    cases g with
    | blank d hd => obtain rfl : '/' = d := h; cases hd.symm.trans hslash
    | newline => exact absurd (show '/' = '\n' from h) (by decide)
    | comment => exact .inr ⟨rfl, rfl⟩

/-- **A gap is cut into fillers in one way.**  The first character tells what comes first; a comment
goes on to the end of its line. -/
theorem unique {rest : List Char} : ∀ {fs gs : List Filler}, EndLines rest fs → EndLines rest gs →
    textAll fs = textAll gs → fs = gs
  | [], [], _, _, _ => rfl
  | [], g :: gs, _, _, h => by
    obtain ⟨more, hmore⟩ := g.exists_text
    rw [textAll_cons, hmore] at h
    exact absurd h nofun
  | f :: fs, [], _, _, h => by
    obtain ⟨more, hmore⟩ := f.exists_text
    rw [textAll_cons, hmore] at h
    exact absurd h nofun
  | f :: fs, g :: gs, ⟨hf, hfs⟩, ⟨hg, hgs⟩, h => by
    rw [textAll_cons, textAll_cons] at h
    suffices hsame : f = g by
      subst hsame
      rw [unique hfs hgs (List.append_cancel_left h)]
    obtain ⟨more, hmore⟩ := f.exists_text
    obtain ⟨more', hmore'⟩ := g.exists_text
    have hfirst : f.first = g.first := by
      rw [hmore, hmore'] at h
      exact (List.cons.inj h).1
    rcases alike_of_first hfirst with hsame | ⟨hcomment, hcomment'⟩
    · exact hsame
    · cases f with
      | blank | newline => cases hcomment
      | comment cs hcs =>
        cases g with
        | blank | newline => cases hcomment'
        | comment ds hds =>
          have hall : cs ++ (textAll fs ++ rest) = ds ++ (textAll gs ++ rest) := by
            rw [← List.append_assoc, ← List.append_assoc]
            exact congrArg (· ++ rest) (List.cons.inj (List.cons.inj h).2).2
          have hline := takeWhile_comment hcs (hf rfl)
          rw [hall, takeWhile_comment hds (hg rfl)] at hline
          subst hline
          rfl

/-- The fillers are what stands between two offsets of the source. -/
def Fills (source : String) (m n : Nat) (fs : List Filler) : Prop :=
  ∃ before rest, source.toList = before ++ (textAll fs ++ rest) ∧ m = Text.byteLength before ∧
    n = Text.byteLength (before ++ textAll fs) ∧ EndLines rest fs

end Filler

/-- Texts in front of the same offset are the same. -/
theorem Text.eq_of_byteLength_eq {cs ds es : List Char} (hd : ds <+: cs) (he : es <+: cs)
    (h : byteLength ds = byteLength es) : ds = es := by
  have hde := prefix_of_byteLength_le hd he (Nat.le_of_eq h)
  have hed := prefix_of_byteLength_le he hd (Nat.le_of_eq h.symm)
  exact hde.eq_of_length (Nat.le_antisymm hde.length_le hed.length_le)

/-- **No other fillers stand there.** -/
theorem Filler.Fills.unique {source : String} {m n : Nat} {fs gs : List Filler}
    (hfs : Fills source m n fs) (hgs : Fills source m n gs) : fs = gs := by
  obtain ⟨before, rest, heq, hm, hn, hends⟩ := hfs
  obtain ⟨before', rest', heq', hm', hn', hends'⟩ := hgs
  obtain rfl : before = before' :=
    Text.eq_of_byteLength_eq ⟨_, heq.symm⟩ ⟨_, heq'.symm⟩ (hm.symm.trans hm')
  rw [← List.append_assoc] at heq heq'
  have htext : before ++ textAll fs = before ++ textAll gs :=
    Text.eq_of_byteLength_eq ⟨_, heq.symm⟩ ⟨_, heq'.symm⟩ (hn.symm.trans hn')
  have hrest : rest = rest' := by
    rw [htext] at heq
    exact List.append_cancel_left (heq.symm.trans heq')
  subst hrest
  exact Filler.unique hends hends' (List.append_cancel_left htext)

/-! ## 2. Marks -/

/-- The marks say what the gap holds, and whether a line begins behind it: behind a newline, and
where nothing at all is in front. -/
structure Layout.Tells (first : Prop) (fs : List Filler) (l : Layout) : Prop where
  blank : l.blank = true ↔ ∃ c h, Filler.blank c h ∈ fs
  newline : l.newline = true ↔ Filler.newline ∈ fs
  comment : l.comment = true ↔ ∃ more h, Filler.comment more h ∈ fs
  lineStart : l.lineStart = true ↔ l.newline = true ∨ first

namespace Layout

theorem tells_atLineStart : Tells True [] atLineStart := by
  constructor <;> simp [atLineStart]

theorem tells_none : Tells False [] none := by
  constructor <;> simp [none]

theorem Tells.union {first : Prop} {fs gs : List Filler} {l m : Layout} (hl : Tells first fs l)
    (hm : Tells False gs m) : Tells first (fs ++ gs) (l.union m) := by
  constructor
  · simp only [Layout.union, Bool.or_eq_true, hl.blank, hm.blank, List.mem_append, exists_or]
  · simp only [Layout.union, Bool.or_eq_true, hl.newline, hm.newline, List.mem_append]
  · simp only [Layout.union, Bool.or_eq_true, hl.comment, hm.comment, List.mem_append, exists_or]
  · simp only [Layout.union, Bool.or_eq_true, hl.lineStart, hm.lineStart, or_false]
    exact or_right_comm

end Layout

/-- The blanks of a run, one by one. -/
theorem Filler.exists_blanks {text : List Char} (h : ∀ c ∈ text, Shape.isBlank c = true) :
    ∃ fs : List Filler, textAll fs = text ∧ ∀ f ∈ fs, ∃ c h, f = blank c h := by
  induction text with
  | nil => exact ⟨[], rfl, nofun⟩
  | cons c cs ih =>
    obtain ⟨hc, hcs⟩ := List.forall_mem_cons.mp h
    obtain ⟨fs, rfl, hfs⟩ := ih hcs
    exact ⟨blank c hc :: fs, rfl, List.forall_mem_cons.mpr ⟨⟨c, hc, rfl⟩, hfs⟩⟩

/-- **A lexeme that leaves a mark is made of fillers,** and its mark tells which. -/
theorem Lexeme.IsWhole.fillers {l : Lexeme} {mark : Layout} {rest : List Char} (h : l.IsWhole)
    (hstops : l.StopsAt rest) (hmark : l.shape.mark? = some mark) :
    ∃ fs, Filler.textAll fs = l.text ∧ Filler.EndLines rest fs ∧ Layout.Tells False fs mark := by
  obtain ⟨shape, text⟩ := l
  have hspells := h.spells
  cases shape with
  | blank =>
    cases hmark
    obtain ⟨hne, hblank⟩ := hspells
    obtain ⟨fs, rfl, hfs⟩ := Filler.exists_blanks hblank
    refine ⟨fs, rfl, Filler.endLines_of_no_comment fun f hf => ?_, ?_⟩
    · obtain ⟨c, hc, rfl⟩ := hfs f hf
      rfl
    · have hnot : ∀ f ∈ fs, f ≠ .newline ∧ ∀ more h, f ≠ .comment more h := by
        intro f hf
        obtain ⟨c, hc, rfl⟩ := hfs f hf
        exact ⟨nofun, nofun⟩
      obtain ⟨f, fs', rfl⟩ : ∃ f fs', fs = f :: fs' := by
        refine List.exists_cons_of_ne_nil ?_
        rintro rfl
        exact hne rfl
      obtain ⟨c, hc, rfl⟩ := hfs f List.mem_cons_self
      refine ⟨iff_of_true rfl ⟨c, hc, List.mem_cons_self⟩, ?_, ?_, by simp⟩
      · exact iff_of_false nofun fun hmem => (hnot _ hmem).1 rfl
      · exact iff_of_false nofun fun ⟨more, hmore, hmem⟩ => (hnot _ hmem).2 more hmore rfl
  | newline =>
    cases hmark
    refine ⟨[.newline], ?_, Filler.endLines_of_no_comment (by simp [Filler.isComment]), ?_⟩
    · exact (show text = ['\n'] from hspells).symm
    · constructor <;> simp
  | comment =>
    cases hmark
    obtain ⟨more, rfl, hmore⟩ := hspells
    refine ⟨[.comment more hmore], by simp [Filler.text], ⟨fun _ c hc => ?_, trivial⟩, ?_⟩
    · have hnone := hstops c (by simpa using hc)
      simpa [Shape.extend?] using hnone
    · constructor <;> simp [hmore]
  | _ => cases hmark

/-! ## 3. A text as tokens -/

namespace Token

open Filler

/-- How a text lies as tokens when it begins at an offset: fillers and tokens by turns, the end of
file last.  Each token is a whole lexeme that takes nothing of what stands behind it. -/
inductive Laid : Prop → Nat → List Char → List (Token String) → Prop
  | endOfFile {first : Prop} {offset : Nat} {fs : List Filler} {layout : Layout}
      (hends : EndLines [] fs) (htells : layout.Tells first fs) :
    Laid first offset (textAll fs)
      [⟨.endOfFile, Span.point (offset + Text.byteLength (textAll fs)), layout⟩]
  | token {first : Prop} {offset start stop : Nat} {fs : List Filler} {layout : Layout} {l : Lexeme}
      {rest : List Char} {ts : List (Token String)}
      (hends : EndLines (l.text ++ rest) fs) (htells : layout.Tells first fs)
      (hwhole : l.IsWhole) (hsolid : l.shape.mark? = none) (hstops : l.StopsAt rest)
      (hstart : start = offset + Text.byteLength (textAll fs))
      (hstop : stop = start + Text.byteLength l.text) (hts : Laid False stop rest ts) :
    Laid first offset (textAll fs ++ (l.text ++ rest)) (⟨l.kind, ⟨start, stop⟩, layout⟩ :: ts)

/-- **The tokens of a text lie in it,** behind the fillers that have been passed. -/
theorem laid_ofLexemes (cs : List Char) : ∀ {first : Prop} (offset : Nat) (fs : List Filler)
    {pending : Layout}, EndLines cs fs → pending.Tells first fs →
      Laid first offset (textAll fs ++ cs)
        (ofLexemes (offset + Text.byteLength (textAll fs)) pending (Lexeme.scan cs)) := by
  induction cs using Lexeme.scan_induction with
  | nil =>
    intro first offset fs pending hends htells
    rw [List.append_nil]
    exact .endOfFile hends htells
  | cons l rest hwhole hstops ih =>
    intro first offset fs pending hends htells
    rw [hwhole.scan_append hstops, ofLexemes]
    cases hmark : l.shape.mark? with
    | none =>
      refine .token hends htells hwhole hmark hstops rfl rfl ?_
      exact ih _ [] trivial Layout.tells_none
    | some mark =>
      obtain ⟨gs, hgs, hends', htells'⟩ := hwhole.fillers hstops hmark
      rw [← hgs] at hends ⊢
      have hrest := ih offset _ (hends.append hends') (htells.union htells')
      rwa [textAll_append, List.append_assoc, Text.byteLength_append, ← Nat.add_assoc] at hrest

theorem laid_ofSource (source : String) : Laid True 0 source.toList (ofSource source) :=
  laid_ofLexemes source.toList 0 [] trivial Layout.tells_atLineStart

/-- Where the last of some tokens ends; the given offset if there are none. -/
def stopOf (offset : Nat) (ts : List (Token String)) : Nat :=
  ts.getLast?.elim offset fun t => t.span.stop

theorem stopOf_cons (offset : Nat) (t : Token String) (ts : List (Token String)) :
    stopOf offset (t :: ts) = stopOf t.span.stop ts := by
  unfold stopOf
  rw [List.getLast?_cons]
  cases ts.getLast? <;> rfl

/-- **In front of each token stand fillers,** from where the token before ends. -/
theorem Laid.fills {source : String} {first : Prop} {offset : Nat} {cs : List Char}
    {ts : List (Token String)} (h : Laid first offset cs ts) :
    ∀ (before : List Char), source.toList = before ++ cs → offset = Text.byteLength before →
      ∀ {front back : List (Token String)} {t : Token String}, ts = front ++ t :: back →
        ∃ fs, Fills source (stopOf offset front) t.span.start fs ∧
          t.layout.Tells (first ∧ front = []) fs := by
  induction h with
  | @endOfFile first offset fs layout hends htells =>
    rintro before hsource rfl front back t hts
    cases front with
    | nil =>
      obtain ⟨rfl, -⟩ := List.cons.inj hts
      refine ⟨fs, ⟨before, [], ?_, rfl, ?_, hends⟩, ?_⟩
      · rw [hsource, List.append_nil]
      · rw [Text.byteLength_append]
        rfl
      · simpa using htells
    | cons u front => exact absurd (List.cons.inj hts).2.symm (by simp)
  | @token first offset start stop fs layout l rest ts hends htells _ _ _ hstart hstop _ ih =>
    rintro before hsource rfl front back t hts
    cases front with
    | nil =>
      obtain ⟨rfl, -⟩ := List.cons.inj hts
      refine ⟨fs, ⟨before, l.text ++ rest, hsource, rfl, ?_, hends⟩, ?_⟩
      · rw [Text.byteLength_append, hstart]
      · simpa using htells
    | cons u front =>
      obtain ⟨rfl, hmore⟩ := List.cons.inj hts
      have hsource' : source.toList = (before ++ (textAll fs ++ l.text)) ++ rest := by
        rw [hsource]
        simp only [List.append_assoc]
      have hstop' : stop = Text.byteLength (before ++ (textAll fs ++ l.text)) := by
        rw [hstop, hstart]
        simp only [Text.byteLength_append, Nat.add_assoc]
      obtain ⟨gs, hgs, htells'⟩ := ih _ hsource' hstop' hmore
      rw [stopOf_cons]
      exact ⟨gs, hgs, by simpa using htells'⟩

/-- The token is the lexeme at the beginning of what is left of the source. -/
structure Reads (source : String) (t : Token String) (l : Lexeme) (before rest : List Char) :
    Prop where
  split : source.toList = before ++ (l.text ++ rest)
  span_eq : t.span = ⟨Text.byteLength before, Text.byteLength (before ++ l.text)⟩
  kind_eq : t.kind = l.kind
  whole : l.IsWhole
  solid : l.shape.mark? = none
  stops : l.StopsAt rest

/-- **Each token but the end of file is a whole lexeme.** -/
theorem Laid.reads {source : String} {first : Prop} {offset : Nat} {cs : List Char}
    {ts : List (Token String)} (h : Laid first offset cs ts) :
    ∀ (before : List Char), source.toList = before ++ cs → offset = Text.byteLength before →
      ∀ t ∈ ts, t.kind ≠ .endOfFile → ∃ l before rest, Reads source t l before rest := by
  induction h with
  | endOfFile =>
    intro before _ _ t ht hkind
    rw [List.mem_singleton.mp ht] at hkind
    exact absurd rfl hkind
  | @token first offset start stop fs layout l rest ts _ _ hwhole hsolid hstops hstart hstop _ ih =>
    rintro before hsource rfl t ht hkind
    have hfront : start = Text.byteLength (before ++ textAll fs) := by
      rw [hstart, Text.byteLength_append]
    have hback : stop = Text.byteLength (before ++ textAll fs ++ l.text) := by
      rw [hstop, hfront, Text.byteLength_append _ l.text]
    rcases List.mem_cons.mp ht with rfl | ht
    · refine ⟨l, before ++ textAll fs, rest, ?_, ?_, rfl, hwhole, hsolid, hstops⟩
      · rw [hsource, List.append_assoc]
      · rw [hfront, hback]
    · refine ih (before ++ textAll fs ++ l.text) ?_ hback t ht hkind
      rw [hsource]
      simp only [List.append_assoc]

theorem exists_reads {source : String} {t : Token String} (ht : t ∈ beforeEnd source) :
    ∃ l before rest, Reads source t l before rest := by
  obtain ⟨hmem, hkind⟩ := List.mem_filter.mp ht
  exact (laid_ofSource source).reads [] rfl rfl t hmem (bne_iff_ne.mp hkind)

theorem exists_fills {source : String} {front back : List (Token String)} {t : Token String}
    (hts : ofSource source = front ++ t :: back) :
    ∃ fs, Fills source (stopOf 0 front) t.span.start fs ∧ t.layout.Tells (front = []) fs := by
  obtain ⟨fs, hfills, htells⟩ := (laid_ofSource source).fills [] rfl rfl hts
  exact ⟨fs, hfills, by simpa using htells⟩

/-- **Tokens, marks and fillers together cover the source.**  The end of file comes once, as a point
behind the text.  The other tokens cover something, each begins and ends between characters, and
they stand behind each other.  In front of each token, from where the one before ends, stand blanks,
newlines and comments and nothing else, and its layout tells which of them do. -/
theorem cover_ofSource (source : String) :
    (∃ ts layout, ofSource source =
        ts ++ [⟨.endOfFile, Span.point (Text.byteLength source.toList), layout⟩] ∧
      ∀ t ∈ ts, t.kind ≠ .endOfFile ∧ t.span.start < t.span.stop) ∧
    (∀ t ∈ ofSource source,
      Text.IsBoundary source t.span.start ∧ Text.IsBoundary source t.span.stop) ∧
    (ofSource source).Pairwise (fun t u => t.span.stop ≤ u.span.start) ∧
    ∀ front t back, ofSource source = front ++ t :: back →
      ∃ fs, (∀ gs, Fills source (stopOf 0 front) t.span.start gs ↔ gs = fs) ∧
        t.layout.Tells (front = []) fs := by
  refine ⟨?_, fun t ht => ?_, apart_ofSource source, fun front t back hts => ?_⟩
  · obtain ⟨layout, heq⟩ := ofSource_eq_append_point source
    refine ⟨beforeEnd source, layout, heq, fun t ht => ⟨?_, ?_⟩⟩
    · exact bne_iff_ne.mp (List.mem_filter.mp ht).2
    · exact (inOrder_beforeEnd source).solid t ht
  · have hcuts := cuts_ofSource ht
    exact ⟨hcuts.starts, hcuts.stops⟩
  · obtain ⟨fs, hfills, htells⟩ := exists_fills hts
    refine ⟨fs, fun gs => ⟨fun hgs => hgs.unique hfills, ?_⟩, htells⟩
    rintro rfl
    exact hfills

/-- A comment that nothing ends stands in front of the end of file, behind a line of its own. -/
theorem cover_ofSource_comment :
    let source := "é\t\n\r// x"
    let front : List (Token String) := [⟨.invalid, ⟨0, 2⟩, .atLineStart⟩]
    let layout : Layout := ⟨true, true, true, true⟩
    ofSource source = front ++ [⟨.endOfFile, Span.point 9, layout⟩] ∧
      ∃ fs, (∀ gs, Fills source 2 9 gs ↔ gs = fs) ∧ layout.Tells False fs := by
  intro source front layout
  have hts : ofSource source = front ++ [⟨.endOfFile, Span.point 9, layout⟩] := by decide +kernel
  have hcover := (cover_ofSource source).2.2.2 front _ [] hts
  exact ⟨hts, by simpa [front, stopOf, Span.point] using hcover⟩

end Token

end PlatformGate
