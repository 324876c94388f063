/-
# Two diagnostics for a keyword where no keyword may stand

Where an availability keyword stands in the place of a value, the value is found missing in front of
it, and then the keyword is quoted with the leftovers that begin with it.  Between the two nothing
else is reported, with one exception: a header ends in front of a keyword that begins a line, so
there a body or an `else` may be found missing at the keyword first (`misuse_of_header`).
-/
import PlatformGate.Proofs.Recovery.TrailLines
import PlatformGate.Proofs.Token.Bounds

namespace PlatformGate

open Terminal

/-! ## 1. What follows a misuse -/

/-- Leftovers that begin at the index, but not those of a query. -/
def Report.Settles (k : Nat) (r : Report Run) : Prop :=
  ∃ c m, c ≠ .availability ∧ k < m ∧ r = ⟨.leftover c, ⟨k, m⟩⟩

section Trails

variable {w : List Terminal} {s s' : Debt} {r : Report Run} {rs : List (Report Run)} {k n : Nat}

/-- A trail, cut at one of its reports. -/
theorem Trail.cut (h : Trail w s rs s') (hr : rs[n]? = some r) :
    ∃ before behind, Follows w before r behind ∧ Trail w behind (rs.drop (n + 1)) s' := by
  induction h generalizing n with
  | nil => exact absurd hr nofun
  | @cons s behind _ r' rs hfollows _ hrs ih =>
    cases n with
    | zero =>
      obtain rfl : r' = r := by simpa using hr
      exact ⟨s, behind, hfollows, hrs⟩
    | succ n => exact ih (by simpa using hr)

theorem Follows.due_of_misuse {pos : ValuePosition}
    (h : Follows w s ⟨.missingValue pos, Run.point k⟩ s') (hkeyword : keywordAt w k = true) :
    s' = .due k := by
  cases h with
  | other h => exact absurd ⟨pos, k, rfl, hkeyword⟩ h
  | misuse => rfl

/-- What is owed late is settled next. -/
theorem Trail.settles_of_late (h : Trail w (.late k) rs .clear) : ∃ r, rs[0]? = some r ∧
    r.Settles k := by
  cases h with
  | cons hr _ _ =>
    refine ⟨_, rfl, ?_⟩
    cases hr with
    | settle hs hc hlt =>
      obtain rfl : k = _ := by simpa using hs
      exact ⟨_, _, hc, hlt, rfl⟩

/-- **What is due is settled next,** or the one behind, if the keyword begins a line. -/
theorem Trail.settles_of_due (h : Trail w (.due k) rs .clear) :
    (∃ r, rs[0]? = some r ∧ r.Settles k) ∨
    lineStartAt w k = true ∧
      (∃ cause, rs[0]? = some ⟨cause, Run.token k⟩ ∧ cause.EndsHeader) ∧
      ∃ r, rs[1]? = some r ∧ r.Settles k := by
  cases h with
  | cons hr _ hrs =>
    cases hr with
    | settle hs hc hlt =>
      obtain rfl : k = _ := by simpa using hs
      exact .inl ⟨_, rfl, _, _, hc, hlt, rfl⟩
    | delay hcause hline => exact .inr ⟨hline, ⟨_, rfl, hcause⟩, hrs.settles_of_late⟩

end Trails

/-! ## 2. Diagnostics -/

/-- The diagnostic quotes leftover code that begins with the token. -/
def Diagnostic.QuotesFrom (t : Token String) (d : Diagnostic) : Prop :=
  (d.code = .e1008 ∨ d.code = .e1009) ∧ d.span.start = t.span.start ∧
    ∃ c f quoted, d.code = Construct.leftoverCode c ∧ d.message = c.leftoverMessage quoted ∧
      t.kind = .fixed f ∧ f.spelling.toList <+: quoted.toList

/-- The diagnostic stands on the token and says that a header has ended there without its body, or
without its `else`. -/
def Diagnostic.EndsHeaderAt (t : Token String) (d : Diagnostic) : Prop :=
  d.span = t.span ∧
    ((d.code = .e1010 ∧
        ∃ owner : Owner, d.message = s!"expected '{Construct.block.opening}' in {owner.phrase}") ∨
      (d.code = .e1011 ∧ d.message = "expected 'else' in 'guard' statement"))

section Source

variable {source : String} {t : Token String} {k : Nat}

theorem Cause.missingValue_of_code {ρ : Type} {cause : Cause ρ} (h : cause.code = .e1007) :
    ∃ pos, cause = .missingValue pos := by
  cases cause with
  | missingValue pos => exact ⟨pos, rfl⟩
  | unclosed c opener => cases c <;> exact absurd h nofun
  | leftover c => cases c <;> exact absurd h nofun
  | _ => exact absurd h nofun

/-- A report that a header ends at a token is one of two diagnostics on the token. -/
theorem Report.endsHeaderAt {cause : Cause Run} (h : cause.EndsHeader)
    (ht : (Token.beforeEnd source)[k]? = some t) :
    ((Report.map (Run.locate source) ⟨cause, Run.token k⟩).toDiagnostic source).EndsHeaderAt t := by
  refine ⟨Run.locate_token ht, ?_⟩
  cases cause with
  | missingBody owner atEnd =>
    cases atEnd with
    | false => exact .inl ⟨rfl, owner, rfl⟩
    | true => exact h.elim
  | missingElse => exact .inr ⟨rfl, rfl⟩
  | _ => exact h.elim

theorem Kind.exists_fixed_of_isAvailability {k : Kind String} (h : k.isAvailability = true) :
    ∃ f, k = .fixed f := by
  cases k with
  | fixed f => exact ⟨f, rfl⟩
  | _ => exact absurd h nofun

theorem Construct.leftoverCode_of_ne {c : Construct} (h : c ≠ .availability) :
    c.leftoverCode = .e1008 ∨ c.leftoverCode = .e1009 := by
  cases c with
  | availability => exact absurd rfl h
  | topLevel => exact .inr rfl
  | _ => exact .inl rfl

/-- The message about leftovers quotes the text at their place. -/
theorem Report.message_leftover (c : Construct) (place : Run) (f : Run → Span) (text : String) :
    ((Report.map f ⟨.leftover c, place⟩).toDiagnostic text).message =
      c.leftoverMessage ((Text.slice? text (f place).start (f place).stop).getD "") := rfl

/-- A report that settles what is owed at a token quotes code that begins with the token. -/
theorem Report.Settles.quotesFrom {r : Report Run} (h : r.Settles k)
    (hr : r ∈ (Whole.ofSource source).reports) (ht : (Token.beforeEnd source)[k]? = some t)
    (hkeyword : t.kind.isAvailability = true) :
    ((r.map (Run.locate source)).toDiagnostic source).QuotesFrom t := by
  obtain ⟨c, m, hc, hlt, rfl⟩ := h
  have hsolid : (⟨k, m⟩ : Run).Solid (Token.beforeEnd source).length :=
    Whole.solid_leftovers c _ (Whole.mem_leftovers.mpr ⟨_, hr, rfl, rfl⟩)
  obtain ⟨f, hf⟩ := Kind.exists_fixed_of_isAvailability hkeyword
  obtain ⟨quoted, hquoted, hspelled⟩ := Run.slice?_locate hsolid ht hf
  obtain ⟨first, last, hfirst, -, hplace⟩ := hsolid.exists_tokens
  obtain rfl : first = t := Option.some.inj (hfirst.symm.trans ht)
  have hcode : ((Report.map (Run.locate source) ⟨.leftover c, ⟨k, m⟩⟩).toDiagnostic source).code =
      c.leftoverCode := Report.code_toDiagnostic _ _ _
  refine ⟨?_, ?_, c, f, quoted, hcode, ?_, hf, hspelled⟩
  · rw [hcode]
    exact Construct.leftoverCode_of_ne hc
  · change ((⟨k, m⟩ : Run).locate source).start = _
    rw [hplace]
  · rw [Report.message_leftover, hquoted]
    rfl

namespace Outcome

/-- Diagnostics and reports, one by one. -/
theorem getElem?_diagnostics (source : String) (n : Nat) :
    (ofSource source 0).diagnostics[n]? = (Whole.ofSource source).reports[n]?.map fun r =>
      (r.map (Run.locate source)).toDiagnostic source := by
  rw [diagnostics_ofSource, List.getElem?_map]
  rfl

/-- A diagnostic that a value is missing where a token begins comes from a report at that token. -/
theorem exists_missingValue {n : Nat} {d : Diagnostic}
    (hd : (ofSource source 0).diagnostics[n]? = some d) (hcode : d.code = .e1007)
    (ht : (Token.beforeEnd source)[k]? = some t) (hstart : d.span.start = t.span.start) :
    ∃ pos, (Whole.ofSource source).reports[n]? = some ⟨.missingValue pos, Run.point k⟩ := by
  rw [getElem?_diagnostics] at hd
  obtain ⟨⟨cause, first, past⟩, hr, rfl⟩ := Option.map_eq_some_iff.mp hd
  rw [Report.code_toDiagnostic] at hcode
  obtain ⟨pos, rfl⟩ := Cause.missingValue_of_code hcode
  have hread := Parser.topLevel_reads (Input.start (Whole.ofSource source).terminals)
  obtain ⟨-, hle, hpast⟩ := hread.1.placed _ (List.mem_of_getElem? hr)
  obtain rfl : past = first := hpast
  have hle : past ≤ (Token.beforeEnd source).length := Whole.position_next source ▸ hle
  obtain rfl : past = k := Run.first_eq_of_start (r := Run.point past) hle ht hstart
  exact ⟨pos, hr⟩

/-- **A keyword in the place of a value gives two diagnostics.**  Behind the one that misses a value
in front of an availability keyword comes the one that quotes the code from the keyword on.  Between
them stands at most one, and only if the keyword begins a line: that the header in front has ended
at the keyword without its body or its `else`. -/
theorem misuse_quoted {n : Nat} {d : Diagnostic}
    (hd : (ofSource source 0).diagnostics[n]? = some d) (hcode : d.code = .e1007)
    (ht : t ∈ Token.ofSource source) (hkeyword : t.kind.isAvailability = true)
    (hstart : d.span.start = t.span.start) :
    (∃ e, (ofSource source 0).diagnostics[n + 1]? = some e ∧ e.QuotesFrom t) ∨
    t.layout.lineStart = true ∧
      (∃ e, (ofSource source 0).diagnostics[n + 1]? = some e ∧ e.EndsHeaderAt t) ∧
      ∃ e, (ofSource source 0).diagnostics[n + 2]? = some e ∧ e.QuotesFrom t := by
  have hmem : t ∈ Token.beforeEnd source := by
    refine List.mem_filter.mpr ⟨ht, bne_iff_ne.mpr fun hend => ?_⟩
    rw [hend] at hkeyword
    exact absurd hkeyword nofun
  obtain ⟨k, hk⟩ := List.mem_iff_getElem?.mp hmem
  have hterminal : ((Token.beforeEnd source).map Terminal.ofToken)[k]? = some (.ofToken t) := by
    rw [List.getElem?_map, hk]
    rfl
  have hat : keywordAt ((Token.beforeEnd source).map Terminal.ofToken) k = true := by
    rw [keywordAt, hterminal]
    exact hkeyword
  have hquoted : ∀ {r : Report Run} {m : Nat}, (Whole.ofSource source).reports[m]? = some r →
      r.Settles k → ∃ e, (ofSource source 0).diagnostics[m]? = some e ∧ e.QuotesFrom t := by
    intro r m hr hsettles
    refine ⟨_, ?_, hsettles.quotesFrom (List.mem_of_getElem? hr) hk hkeyword⟩
    rw [getElem?_diagnostics, hr]
    rfl
  obtain ⟨pos, hr⟩ := exists_missingValue hd hcode hk hstart
  obtain ⟨before, behind, hfollows, htrail⟩ := (Whole.trail_ofSource source).cut hr
  obtain rfl := hfollows.due_of_misuse hat
  rcases htrail.settles_of_due with
    ⟨r, hr, hsettles⟩ | ⟨hline, ⟨cause, hcause, hend⟩, r, hr, hsettles⟩
  · rw [List.getElem?_drop] at hr
    exact .inl (hquoted hr hsettles)
  · rw [List.getElem?_drop] at hr hcause
    rw [lineStartAt, hterminal] at hline
    have hpart : (ofSource source 0).diagnostics[n + 1]? =
        some ((Report.map (Run.locate source) ⟨cause, Run.token k⟩).toDiagnostic source) := by
      rw [getElem?_diagnostics, hcause]
      rfl
    exact .inr ⟨hline, ⟨_, hpart, Report.endsHeaderAt hend hk⟩, hquoted hr hsettles⟩

/-- A keyword that begins the line behind a header is first found where a brace is missing. -/
theorem misuse_of_header :
    let source := "if !\n#available(iOS 17) " ++ Text.braced " "
    (ofSource source 0).diagnostics.map (fun d => (d.code, d.span.start)) =
        [(.e1007, 5), (.e1010, 5), (.e1009, 5)] ∧
      ∃ t ∈ Token.ofSource source, t.kind.isAvailability = true ∧ t.span.start = 5 :=
  ⟨by decide +kernel, ⟨.fixed .available, ⟨5, 15⟩, ⟨false, true, false, true⟩⟩, by decide +kernel,
    rfl, rfl⟩

/-- The keyword behind the `=` of a declaration. -/
theorem misuse_quoted_initializer :
    let source := "let x = #available(iOS 17)"
    let d : Diagnostic :=
      { code := .e1007
        message := "expected expression in variable"
        span := ⟨8, 8⟩ }
    let t : Token String := ⟨.fixed .available, ⟨8, 18⟩, ⟨true, false, false, false⟩⟩
    (ofSource source 0).diagnostics[0]? = some d ∧ d.code = .e1007 ∧ t ∈ Token.ofSource source ∧
      t.kind.isAvailability = true ∧ d.span.start = t.span.start ∧
      ((∃ e, (ofSource source 0).diagnostics[0 + 1]? = some e ∧ e.QuotesFrom t) ∨
      t.layout.lineStart = true ∧
        (∃ e, (ofSource source 0).diagnostics[0 + 1]? = some e ∧ e.EndsHeaderAt t) ∧
        ∃ e, (ofSource source 0).diagnostics[0 + 2]? = some e ∧ e.QuotesFrom t) := by
  intro source d t
  have hd : (ofSource source 0).diagnostics[0]? = some d := by decide +kernel
  have ht : t ∈ Token.ofSource source := by decide +kernel
  exact ⟨hd, rfl, ht, rfl, rfl, misuse_quoted hd rfl ht rfl rfl⟩

end Outcome

end Source

end PlatformGate
