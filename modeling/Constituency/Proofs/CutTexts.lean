import Constituency.Brackets.Reader
import Constituency.Proofs.SpelledLexemes

/-!
# Cut texts

In front of every token a text can be cut so that both parts are scanned as before. Conversely two
texts are scanned as one, unless a label at the end of the first runs on into the second.
-/

namespace Constituency.Brackets

variable {c : Char} {cs ds front back : List Char} {l : Lexeme} {ls ms : List Lexeme} {a : String}
  {pos start stop : Nat} {token : Token} {taken rest : List Token}

/-- The last lexeme of the text is a label, and nothing follows this label. -/
def EndsWithLabel (cs : List Char) : Prop :=
  ∃ ls a, Spells cs (ls ++ [.label a]) ∧ a.toList <:+ cs

theorem EndsLabel.of_isPrefix (h : EndsLabel cs) (hds : ds <+: cs) : EndsLabel ds := by
  cases ds with
  | nil => rintro d ⟨⟩
  | cons d ds =>
    obtain ⟨rest, rfl⟩ := hds
    exact h

theorem EndsLabel.append (h : EndsLabel cs) (hne : cs ≠ []) : EndsLabel (cs ++ ds) := by
  cases cs with
  | nil => exact absurd rfl hne
  | cons c cs => exact h

section Joined

theorem EndsWithLabel.prepend (h : EndsWithLabel cs) (front : List Char) (first : List Lexeme)
    (hfront : ∀ {ls}, Spells cs ls → Spells (front ++ cs) (first ++ ls)) :
    EndsWithLabel (front ++ cs) := by
  obtain ⟨ls, a, hcs, ha⟩ := h
  exact ⟨first ++ ls, a, by rw [List.append_assoc]; exact hfront hcs,
    ha.trans (List.suffix_append front cs)⟩

/-- What two texts spell together, if no label runs from one into the other. -/
theorem Spells.append (hcs : Spells cs ls) (hds : Spells ds ms)
    (hjoin : EndsWithLabel cs → EndsLabel ds) : Spells (cs ++ ds) (ls ++ ms) := by
  induction hcs with
  | nil => exact hds
  | @blank c _ _ hblank _ ih =>
    exact .blank hblank (ih fun h => hjoin (h.prepend [c] [] (.blank hblank)))
  | opening _ ih => exact .opening (ih fun h => hjoin (h.prepend ['('] [.opening] .opening))
  | closing _ ih => exact .closing (ih fun h => hjoin (h.prepend [')'] [.closing] .closing))
  | @label a cs _ hreadable hend rest ih =>
    have hjoined : EndsLabel (cs ++ ds) := by
      by_cases hne : cs = []
      · subst hne
        exact hjoin ⟨[], a, .label hreadable hend .nil, by simp⟩
      · exact hend.append hne
    rw [List.append_assoc]
    exact .label hreadable hjoined
      (ih fun h => hjoin (h.prepend a.toList [.label a] (.label hreadable hend)))

end Joined

section Cut

/-- The front of a text has the first tokens, and the back starts with the next one. -/
structure IsCut (pos : Nat) (front back : List Char) (taken : List Token) (token : Token)
    (rest : List Token) : Prop where
  start_eq : token.start = pos + front.length
  scan_front : Token.scan pos front = taken
  scan_back : Token.scan token.start back = token :: rest
  nonblank : back.head?.any isBlank = false

/-- What is known of a cut in front of a token, once the first characters are scanned alike whatever
of the text follows them. -/
theorem IsCut.prepend (first : List Char) (passed : List Token)
    (hcut : IsCut (pos + first.length) front back taken token rest)
    (hscan : Token.scan pos (first ++ front) = passed ++ Token.scan (pos + first.length) front) :
    IsCut pos (first ++ front) back (passed ++ taken) token rest where
  start_eq := by rw [hcut.start_eq, List.length_append, Nat.add_assoc]
  scan_front := by rw [hscan, hcut.scan_front]
  scan_back := hcut.scan_back
  nonblank := hcut.nonblank

/-- A cut in front of the first token, or in what follows it. -/
theorem exists_isCut_cons (first : List Char) {passed : Token} (hstart : passed.start = pos)
    (hnonblank : (first ++ cs).head?.any isBlank = false)
    (hscan : ∀ ds, ds <+: cs →
      Token.scan pos (first ++ ds) = passed :: Token.scan (pos + first.length) ds)
    (hlater : ∀ taken, Token.scan (pos + first.length) cs = taken ++ token :: rest →
      ∃ front back, cs = front ++ back ∧ IsCut (pos + first.length) front back taken token rest)
    (h : Token.scan pos (first ++ cs) = taken ++ token :: rest) :
    ∃ front back, first ++ cs = front ++ back ∧ IsCut pos front back taken token rest := by
  have htokens := (hscan cs List.prefix_rfl).symm.trans h
  cases taken with
  | nil =>
    obtain ⟨rfl, -⟩ := List.cons.inj htokens
    exact ⟨[], first ++ cs, rfl, hstart, by rw [Token.scan], by rw [hstart, h]; rfl, hnonblank⟩
  | cons next taken =>
    obtain ⟨rfl, hrest⟩ := List.cons.inj htokens
    obtain ⟨front, back, rfl, hcut⟩ := hlater taken hrest
    exact ⟨first ++ front, back, (List.append_assoc _ _ _).symm,
      hcut.prepend first [passed] (hscan front (List.prefix_append front back))⟩

/-- A text can be cut in front of any of its tokens. -/
theorem exists_isCut (h : Token.scan pos cs = taken ++ token :: rest) :
    ∃ front back, cs = front ++ back ∧ IsCut pos front back taken token rest := by
  have hspells := spells_scan pos cs
  generalize (Token.scan pos cs).map Token.lexeme = ls at hspells
  induction hspells generalizing pos taken with
  | nil => simp [Token.scan] at h
  | @blank c cs _ hblank _ ih =>
    rw [scan_blank hblank] at h
    obtain ⟨front, back, rfl, hcut⟩ := ih h
    exact ⟨c :: front, back, rfl, hcut.prepend [c] [] (scan_blank hblank)⟩
  | opening _ ih =>
    exact exists_isCut_cons ['('] rfl rfl (fun _ _ => scan_opening) (fun _ => ih) h
  | closing _ ih =>
    exact exists_isCut_cons [')'] rfl rfl (fun _ _ => scan_closing) (fun _ => ih) h
  | @label a cs _ hreadable hend _ ih =>
    have hnonblank : (a.toList ++ cs).head?.any isBlank = false := by
      obtain ⟨c, run, ha, hblank, -⟩ := hreadable.exists_cons
      rw [ha]
      exact hblank
    exact exists_isCut_cons a.toList rfl hnonblank
      (fun _ hds => scan_label hreadable (hend.of_isPrefix hds)) (fun _ => ih) h

/-- Behind the cut in front of a label stands that label and then something that ends it. -/
theorem IsCut.exists_after (hcut : IsCut pos front back taken ⟨.label a, start, stop⟩ rest) :
    ∃ after, back = a.toList ++ after ∧ stop = pos + front.length + a.toList.length ∧
      IsReadable a ∧ EndsLabel after ∧ Token.scan stop after = rest := by
  obtain ⟨hstart, -, hscan, hnonblank⟩ := hcut
  simp only at hstart hscan
  have hspells := spells_scan start back
  generalize (Token.scan start back).map Token.lexeme = ls at hspells
  cases hspells with
  | nil => simp [Token.scan] at hscan
  | blank hblank _ => simp [hblank] at hnonblank
  | opening _ => simp [scan_opening] at hscan
  | closing _ => simp [scan_closing] at hscan
  | @label b after _ hreadable hend _ =>
    rw [scan_label hreadable hend] at hscan
    obtain ⟨htoken, hrest⟩ := List.cons.inj hscan
    obtain ⟨hlabel, -, rfl⟩ := Token.mk.inj htoken
    obtain rfl := Lexeme.label.inj hlabel
    exact ⟨after, rfl, by rw [hstart], hreadable, hend, hrest⟩

theorem Spells.isBlank_of_mem (h : Spells cs []) (hc : c ∈ cs) : isBlank c = true := by
  generalize hls : ([] : List Lexeme) = ls at h
  induction h with
  | nil => cases hc
  | blank hblank _ ih =>
    rcases List.mem_cons.mp hc with rfl | hc
    · exact hblank
    · exact ih hc hls
  | opening | closing | label => cases hls

/-- A text that goes on behind its last label does not end with that label: what follows starts
with a character that the label has not, and has blanks only, while the label starts with none. -/
theorem eq_nil_of_suffix {after : List Char} (hreadable : IsReadable a) (hend : EndsLabel after)
    (hafter : Spells after []) (hsuffix : a.toList <:+ front ++ (a.toList ++ after)) :
    after = [] := by
  have hrest : after <:+ front ++ (a.toList ++ after) :=
    (List.suffix_append a.toList after).trans (List.suffix_append front _)
  cases after with
  | nil => rfl
  | cons d after =>
    exfalso
    rcases List.suffix_or_suffix_of_suffix hsuffix hrest with h | h
    · obtain ⟨c, run, ha, hblank, -⟩ := hreadable.exists_cons
      have hc : c ∈ d :: after := h.subset (by simp [ha])
      simp [hafter.isBlank_of_mem hc] at hblank
    · have hd : isLabelChar d = true := hreadable.2.1 d (h.subset List.mem_cons_self)
      simp [hend d rfl] at hd

/-- Nothing follows the last token, if it is a label, exactly if the text ends with that label. -/
theorem endsWithLabel_iff (pos : Nat) : EndsWithLabel cs ↔
    ∃ taken a start, Token.scan pos cs = taken ++ [⟨.label a, start, pos + cs.length⟩] := by
  constructor
  · rintro ⟨ls, a, hspells, hsuffix⟩
    have htokens := scan_of_spells hspells pos
    obtain ⟨taken, last, hscan, -, hlast⟩ := List.map_eq_append_iff.mp htokens
    obtain ⟨⟨lexeme, start, stop⟩, rfl, hlexeme⟩ := List.map_eq_singleton_iff.mp hlast
    obtain rfl : lexeme = .label a := hlexeme
    obtain ⟨front, back, rfl, hcut⟩ := exists_isCut hscan
    obtain ⟨after, rfl, rfl, hreadable, hend, hafter⟩ := hcut.exists_after
    have hnone : Spells after [] := by
      have hspells := spells_scan (pos + front.length + a.toList.length) after
      rwa [hafter] at hspells
    obtain rfl := eq_nil_of_suffix hreadable hend hnone hsuffix
    refine ⟨taken, a, start, ?_⟩
    rw [hscan, List.append_nil, List.length_append, Nat.add_assoc]
  · rintro ⟨taken, a, start, hscan⟩
    obtain ⟨front, back, rfl, hcut⟩ := exists_isCut hscan
    obtain ⟨after, rfl, hstop, -, -, -⟩ := hcut.exists_after
    obtain rfl : after = [] := by
      simp only [List.length_append] at hstop
      exact List.length_eq_zero_iff.mp (by omega)
    refine ⟨taken.map Token.lexeme, a, ?_, ?_⟩
    · have hspells := spells_scan pos (front ++ (a.toList ++ []))
      rwa [hscan, List.map_append] at hspells
    · rw [List.append_nil]
      exact List.suffix_append front a.toList

/-- No label runs over a cut. -/
theorem IsCut.endsLabel (hcut : IsCut pos front back taken token rest)
    (hscan : Token.scan pos (front ++ back) = taken ++ token :: rest)
    (hlabel : EndsWithLabel front) : EndsLabel back := by
  obtain ⟨earlier, a, start, hfront⟩ := (endsWithLabel_iff pos).mp hlabel
  rw [hcut.scan_front] at hfront
  rw [hfront, List.append_assoc] at hscan
  -- The cut in front of the last label of the front.
  obtain ⟨front', back', htext, hcut'⟩ := exists_isCut hscan
  obtain ⟨after, rfl, hstop, -, hend, -⟩ := hcut'.exists_after
  rw [← List.append_assoc] at htext
  have hlength : front.length = (front' ++ a.toList).length := by
    rw [List.length_append]
    omega
  obtain ⟨-, rfl⟩ := List.append_inj htext hlength
  exact hend

end Cut

section Start

/-- What a text must find expected that starts with this character. -/
def Expectation.ofChar (c : Char) : Expectation :=
  if c = '(' then .tree else if c = ')' then .closing else .label

theorem Spells.of_blank (h : Spells (c :: cs) ls) (hblank : isBlank c = true) : Spells cs ls := by
  have hscan := scan_of_spells h 0
  rw [scan_blank hblank] at hscan
  exact hscan ▸ spells_scan 1 cs

theorem Spells.ne_nil (h : Spells cs (l :: ls)) : cs ≠ [] := by
  rintro rfl
  have hscan := scan_of_spells h 0
  simp [Token.scan] at hscan

theorem Spells.exists_cons (hblank : isBlank c = false) (cs : List Char) :
    ∃ l ls, Spells (c :: cs) (l :: ls) := by
  have hspells := spells_scan 0 (c :: cs)
  generalize (Token.scan 0 (c :: cs)).map Token.lexeme = ls at hspells
  cases ls with
  | nil => simp [hspells.isBlank_of_mem List.mem_cons_self] at hblank
  | cons l ls => exact ⟨l, ls, hspells⟩

/-- The first character tells of what kind the first lexeme is. -/
theorem Spells.expectation_eq (h : Spells (c :: cs) (l :: ls)) (hblank : isBlank c = false) :
    l.expectation = .ofChar c := by
  generalize hcs : c :: cs = ds at h
  cases h with
  | blank hblank' _ =>
    obtain ⟨rfl, rfl⟩ := List.cons.inj hcs
    simp [hblank] at hblank'
  | opening _ | closing _ =>
    obtain ⟨rfl, rfl⟩ := List.cons.inj hcs
    rfl
  | label hreadable _ _ =>
    obtain ⟨d, run, ha, -, hopening, hclosing, -⟩ := hreadable.exists_cons
    rw [ha] at hcs
    obtain ⟨rfl, -⟩ := List.cons.inj hcs
    simp [Lexeme.expectation, Expectation.ofChar, hopening, hclosing]

/-- A longer text starts with a lexeme of the same kind, though a label may be longer. -/
theorem Spells.exists_append (h : Spells cs (l :: ls)) (more : List Char) :
    ∃ l' ls', Spells (cs ++ more) (l' :: ls') ∧ l'.expectation = l.expectation := by
  induction cs with
  | nil => exact absurd rfl h.ne_nil
  | cons c cs ih =>
    cases hblank : isBlank c with
    | true =>
      obtain ⟨l', ls', hspells, hl⟩ := ih (h.of_blank hblank)
      exact ⟨l', ls', .blank hblank hspells, hl⟩
    | false =>
      obtain ⟨l', ls', hspells⟩ := Spells.exists_cons hblank (cs ++ more)
      exact ⟨l', ls', hspells,
        (hspells.expectation_eq hblank).trans (h.expectation_eq hblank).symm⟩

end Start

end Constituency.Brackets
