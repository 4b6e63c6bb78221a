import Ilic.RepositoryCore.LocalAgreement

/-! # References below a `file` URI

The package takes the path behind `file://`, appends the reference, normalises the
result and parses it as a `file` URI again.  The native side joins the local path
and writes the `file` URI once.
-/

namespace Ilic.RepositoryCore
open Ilic.Text Repository Foundation Foundation.PosixPath

/-! ## Escapes and separators -/

theorem within_append_slash {w a b : Text} (hw : '/' ∉ w) (h : w <:+: a ++ '/' :: b) :
    w <:+: a ∨ w <:+: b := by
  obtain ⟨s, t, h⟩ := h
  rcases List.append_eq_append_iff.mp h with ⟨c, hc, -⟩ | ⟨c, hc, hb⟩
  · exact Or.inl ⟨s, c, hc.symm⟩
  · cases c with
    | nil => exact Or.inl ⟨s, [], by simpa using hc⟩
    | cons d c =>
      obtain ⟨rfl, rfl⟩ := List.cons.inj hb
      rcases List.append_eq_append_iff.mp hc with ⟨e, ha, he⟩ | ⟨e, -, he⟩
      · exact absurd (by simp [he]) hw
      · cases e with
        | nil => exact absurd (by rw [List.nil_append] at he; simp [← he]) hw
        | cons f e =>
          obtain ⟨-, rfl⟩ := List.cons.inj he
          exact Or.inr ⟨e, t, rfl⟩

theorem within_join {w : Text} (hw : '/' ∉ w) (hne : w ≠ []) {parts : List Text}
    (h : w <:+: join parts) : ∃ s ∈ parts, w <:+: s := by
  induction parts with
  | nil => exact absurd (List.infix_nil.mp h) hne
  | cons s parts ih =>
    cases parts with
    | nil => exact ⟨s, by simp, by simpa using h⟩
    | cons t parts =>
      rw [join_cons_cons] at h
      rcases within_append_slash hw h with h | h
      · exact ⟨s, by simp, h⟩
      · obtain ⟨u, hu, hin⟩ := ih h
        exact ⟨u, List.mem_cons_of_mem _ hu, hin⟩

theorem within_name {v s : Text} (h : s ∈ names v) : s <:+: v := by
  rw [← join_names v]
  generalize names v = parts at h
  induction parts with
  | nil => simp at h
  | cons t parts ih =>
    rcases List.mem_cons.mp h with rfl | h
    · obtain ⟨tail, heq, -⟩ := join_cons s parts
      exact ⟨[], tail, by rw [heq]; rfl⟩
    · cases parts with
      | nil => simp at h
      | cons u parts =>
        rw [join_cons_cons]
        exact (ih h).trans ⟨t ++ ['/'], [], by simp⟩

theorem slash_not_hex {high low : Char} (hhigh : (hexDigit high).isSome = true)
    (hlow : (hexDigit low).isSome = true) : '/' ∉ ['%', high, low] := by
  intro hmem
  simp only [List.mem_cons, List.not_mem_nil, or_false] at hmem
  rcases hmem with hmem | rfl | rfl
  · exact absurd hmem (by decide)
  · exact absurd hhigh (by decide)
  · exact absurd hlow (by decide)

theorem HasEscape.append_slash {a b : Text} (h : HasEscape (a ++ '/' :: b)) :
    HasEscape a ∨ HasEscape b := by
  obtain ⟨high, low, hin, hhigh, hlow⟩ := h
  rcases within_append_slash (slash_not_hex hhigh hlow) hin with h | h
  · exact Or.inl ⟨high, low, h, hhigh, hlow⟩
  · exact Or.inr ⟨high, low, h, hhigh, hlow⟩

theorem HasEscape.percent {s : Text} (h : HasEscape s) : '%' ∈ s := by
  obtain ⟨high, low, hin, -⟩ := h
  exact hin.subset List.mem_cons_self

theorem HasEscape.of_names {v : Text} (h : HasEscape v) : ∃ s ∈ names v, HasEscape s := by
  obtain ⟨high, low, hin, hhigh, hlow⟩ := h
  rw [← join_names v] at hin
  obtain ⟨s, hs, hin⟩ := within_join (slash_not_hex hhigh hlow) (by simp) hin
  exact ⟨s, hs, high, low, hin, hhigh, hlow⟩

theorem mem_forwardSlashes {c : Char} {v : Text} (hc : c ≠ '/') (h : c ∈ forwardSlashes v) :
    c ∈ v := by
  simp only [forwardSlashes, List.mem_map] at h
  obtain ⟨d, hd, heq⟩ := h
  split_ifs at heq
  · exact absurd heq.symm hc
  · exact heq ▸ hd

/-- Slashes for backslashes make no escape. -/
theorem HasEscape.of_forwardSlashes {v : Text} (h : HasEscape (forwardSlashes v)) : HasEscape v := by
  obtain ⟨high, low, ⟨s, t, heq⟩, hhigh, hlow⟩ := h
  have hslash := slash_not_hex hhigh hlow
  rw [forwardSlashes, List.append_assoc, eq_comm, List.map_eq_append_iff] at heq
  obtain ⟨s', rest, rfl, -, hrest⟩ := heq
  rw [List.map_eq_append_iff] at hrest
  obtain ⟨w, t', rfl, hw, -⟩ := hrest
  have hkeep : w = ['%', high, low] := by
    rw [← hw]
    symm
    apply forwardSlashes_of_no_backslash
    intro hmem
    apply hslash
    rw [← hw]
    exact List.mem_map.mpr ⟨'\\', hmem, rfl⟩
  exact ⟨high, low, ⟨s', t', by rw [hkeep, List.append_assoc]⟩, hhigh, hlow⟩

theorem Plain.forwardSlashes {v : Text} (h : Plain v) : Plain (Text.forwardSlashes v) :=
  ⟨fun hmem => h.noNul (mem_forwardSlashes (by decide) hmem),
    fun he => h.noEscape he.of_forwardSlashes⟩

/-- A name in a normal form is a dot, a drive, or stands in the text it was made from. -/
theorem name_normalizePath {v s : Text} (h : s ∈ names (normalizePath v)) :
    isDot s = true ∨ (∃ letter, letter.isAlpha = true ∧ s = [letter, ':']) ∨
      s <:+: Text.forwardSlashes v := by
  by_cases hdot : isDot s = true
  · exact Or.inl hdot
  have hsegments : s ∈ (LocalPath.read v).segments := by
    rw [normalizePath_eq] at h
    by_cases hroot : RootOnlyPath (LocalPath.read v)
    · obtain ⟨hnil, hroot⟩ := hroot
      rcases hroot with hroot | ⟨letter, hroot⟩
      · rw [scriptText, hroot, hnil] at h
        have hs : s = ['.'] := by simpa [scriptRender, names_plain] using h
        exact absurd (by simp [hs, isDot]) hdot
      · have hwf := (LocalPath.read v).wellFormed
        rw [hroot] at hwf
        have hletter : '/' ≠ letter := by
          rintro rfl
          exact absurd (show Char.isAlpha '/' = true from hwf) (by decide)
        rw [scriptText, hroot, hnil, scriptRender, names_plain (by simp [hletter])] at h
        rw [LocalPath.segments, hroot, hnil]
        exact h
    · rw [← (text_eq_scriptText_iff _).mpr hroot] at h
      rw [← filter_names_text]
      exact List.mem_filter.mpr ⟨h, by simpa using hdot⟩
  rcases List.mem_append.mp hsegments with hs | hs
  · refine Or.inr (Or.inl ?_)
    have hwf := (LocalPath.read v).wellFormed
    cases hroot : (LocalPath.read v).root with
    | drive letter slash =>
      rw [hroot] at hs hwf
      exact ⟨letter, hwf, by simpa [LocalRoot.driveNames] using hs⟩
    | _ =>
      rw [hroot] at hs
      simp [LocalRoot.driveNames] at hs
  · refine Or.inr (Or.inr ?_)
    have hname : s ∈ names (readRoot (Text.forwardSlashes v)).2 := Segments.mem_of_mem_resolve hs
    refine (within_name hname).trans ?_
    rcases readRoot_cases (Text.forwardSlashes v) with
      ⟨r, hr⟩ | ⟨r, hr, h1⟩ | ⟨c, r, hr, h1⟩ | ⟨c, r, hr, h1, h2⟩ | ⟨h1, h2⟩
    · rw [hr, readRoot_unc]; exact ⟨['/', '/'], [], by simp⟩
    · rw [hr, readRoot_absolute h1]; exact ⟨['/'], [], by simp⟩
    · rw [hr, readRoot_drive h1]; exact ⟨[c, ':', '/'], [], by simp⟩
    · rw [hr, readRoot_drive_relative h1 h2]; exact ⟨[c, ':'], [], by simp⟩
    · rw [readRoot_relative h1 h2]

/-- Normalisation of a path brings in neither a NUL nor an escape. -/
theorem Plain.normalizePath {v : Text} (h : Plain v) : Plain (normalizePath v) := by
  have hchar : ∀ c : Char, c ≠ '/' → c ≠ '.' → c ≠ ':' → c.isAlpha = false →
      ∀ s ∈ names (RepositoryCore.normalizePath v), c ∈ s → s <:+: Text.forwardSlashes v := by
    intro c h1 h2 h3 h4 s hs hc
    rcases name_normalizePath hs with hdot | ⟨letter, hletter, rfl⟩ | hin
    · simp only [isDot, Bool.or_eq_true, decide_eq_true_eq] at hdot
      rcases hdot with rfl | rfl
      · simp at hc
      · exact absurd (by simpa using hc) h2
    · simp only [List.mem_cons, List.not_mem_nil, or_false] at hc
      rcases hc with rfl | hc
      · rw [h4] at hletter
        cases hletter
      · exact absurd hc h3
    · exact hin
  constructor
  · intro hmem
    rw [← join_names (RepositoryCore.normalizePath v)] at hmem
    rcases mem_join hmem with hslash | ⟨s, hs, hc⟩
    · exact absurd hslash (by decide)
    · exact h.forwardSlashes.noNul ((hchar nul (by decide) (by decide) (by decide) (by decide)
        s hs hc).subset hc)
  · intro hescape
    obtain ⟨s, hs, he⟩ := hescape.of_names
    exact h.forwardSlashes.noEscape (he.mono
      (hchar '%' (by decide) (by decide) (by decide) (by decide) s hs he.percent))

/-! ## The joined `file` URI -/

/-- The text behind `file://` in what the package writes for a path. -/
def scriptRaw (p : LocalPath) : Text :=
  if p.root = .unc ∧ p.parts ≠ [] then join p.parts else scriptText p

theorem cutAfter_scriptFileForm {p : LocalPath} (h : p.root = .absolute ∨ p.root = .unc) :
    (cutAfter RepositoryCore.schemeSeparator (scriptFileForm (scriptText p))).2 = scriptRaw p := by
  have hform : scriptFileForm (scriptText p) =
      "file".toList ++ Repository.schemeSeparator ++ scriptRaw p := by
    obtain ⟨root, parts, hwf, hparts⟩ := p
    have hstart := join_startsWith_slash hparts
    simp only at h
    rcases h with rfl | rfl
    · cases parts with
      | nil => rfl
      | cons s parts =>
        simp [scriptFileForm, scriptText, scriptRender_cons, LocalRoot.render, hstart, scriptRaw,
          Repository.schemeSeparator]
    · cases parts with
      | nil => rfl
      | cons s parts => rfl
  rw [hform]
  exact congrArg Prod.snd (cutAfter_separator _ (by decide))

/-- What the package makes of a normalised path behind `file://`. -/
theorem script_fileText {X : Text} (h : Plain X) :
    ('%' ∈ X → ∃ message, normalizeRepositoryUri ("file://".toList ++ X) = .error message) ∧
    ('%' ∉ X → normalizeRepositoryUri ("file://".toList ++ X) =
      .ok (scriptFileForm (normalizePath (filePath X)))) := by
  have hfile : normalizeRepositoryUri ("file://".toList ++ X) =
      (decodeFilePath X).map fun raw => scriptFileForm (normalizePath (filePath raw)) :=
    script_file (show lower "file".toList = "file".toList from rfl)
  rw [hfile]
  constructor
  · intro hmem
    obtain ⟨message, hmessage⟩ := decodeFilePath_stray h.noEscape hmem
    exact ⟨message, by rw [hmessage]; rfl⟩
  · intro hmem
    rw [decodeFilePath_plain hmem h.noNul]
    rfl

/-- Behind two slashes every other text is read as the segments below a UNC root. -/
theorem normalizePath_filePath {X : Text} (hback : '\\' ∉ X)
    (hstart : startsWith ['/'] X = false) :
    normalizePath (filePath X) = LocalRoot.unc.render (belowRoot (names X)) := by
  have hrender : ∀ l, scriptRender .unc l = LocalRoot.unc.render l := fun l => by cases l <;> rfl
  rw [filePath, if_neg (by simp [hstart]), normalizePath_of_noBackslash (by simpa using hback),
    ← hrender]
  rfl

theorem partsOf_names_text {X : Text} (hback : '\\' ∉ X) : PartsOf .unc (belowRoot (names X)) :=
  localParts_partsOf hback

/-- A `file` URI of the native side equals one with a UNC path only at the root. -/
theorem fileForm_eq_unc_iff {root : LocalRoot} {parts parts' : List Text}
    (h : PartsOf root parts) (h' : PartsOf .unc parts') :
    RepositoryUri.fileForm ('/' :: join parts) = scriptFileForm (LocalRoot.unc.render parts') ↔
      parts = [] ∧ parts' = [] := by
  have hstart := join_startsWith_slash h
  have hform : RepositoryUri.fileForm ('/' :: join parts) = "file://".toList ++ '/' :: join parts := by
    simp [RepositoryUri.fileForm, hstart]
  rw [hform]
  cases parts' with
  | nil =>
    have hscript : scriptFileForm (LocalRoot.unc.render []) = "file://".toList ++ ['/'] := rfl
    rw [hscript]
    simp [join_eq_nil h]
  | cons s parts' =>
    refine iff_of_false (fun heq => ?_) (by simp)
    have hstart' := join_startsWith_slash h'
    have hscript : scriptFileForm (LocalRoot.unc.render (s :: parts')) =
        "file://".toList ++ join (s :: parts') := rfl
    rw [hscript] at heq
    rw [← List.append_cancel_left heq] at hstart'
    cases hstart'

/-- The native `file` URI for a joined path. -/
def nativeFile (p clean : Text) : Except Text RepositoryUri :=
  (RepositoryUri.parse (lexicallyNormal (append p clean))).map fun joined =>
    fileUri (RepositoryUri.fileForm joined.normalized) joined.normalized

theorem nativeFile_eq {p : LocalPath} (hroot : p.root.isRooted = true) {clean : Text}
    (h : '\\' ∉ clean) :
    ∃ u, nativeFile p.text clean = .ok u ∧
      u.normalized = RepositoryUri.fileForm ('/' :: join (nativeParts p clean)) := by
  obtain ⟨u, hu, hnormal⟩ := native_nativeParts hroot h
  exact ⟨fileUri (RepositoryUri.fileForm u.normalized) u.normalized, by rw [nativeFile, hu]; rfl,
    congrArg RepositoryUri.fileForm hnormal⟩

/-- A relative normal form behind `file://`. -/
theorem agree_file_relative {p : LocalPath} (hroot : p.root.isRooted = true) {clean X : Text}
    {l : List Text} (hclean : '\\' ∉ clean) (hplain : Plain X)
    (hparts : PartsOf .relative (fromHere l)) (hX : X = LocalRoot.relative.render (fromHere l))
    (hbelow : belowRoot l = [] → nativeParts p clean = []) :
    Agree (nativeFile p.text clean) (normalizeRepositoryUri ("file://".toList ++ X)) ↔
      belowRoot l = [] := by
  obtain ⟨u, hu, hnormal⟩ := nativeFile_eq hroot hclean
  obtain ⟨herror, hok⟩ := script_fileText hplain
  have hback : '\\' ∉ X := by
    rw [hX]
    exact render_noBackslash trivial hparts
  have hstart : startsWith ['/'] X = false := by
    rw [hX]
    exact startsWith_render_relative hparts
  have hnames : belowRoot (names X) = belowRoot l := by
    rw [hX]
    refine Eq.trans ?_ (Segments.resolve_rooted_resolve l)
    change belowRoot (names (LocalRoot.relative.render (fromHere l))) = belowRoot (fromHere l)
    cases hkept : fromHere l with
    | nil => rfl
    | cons s rest =>
      rw [hkept] at hparts
      change belowRoot (names (join (s :: rest))) = _
      rw [names_join hparts.noSlash (by simp)]
  rw [hu]
  by_cases hpercent : '%' ∈ X
  · obtain ⟨message, hmessage⟩ := herror hpercent
    rw [hmessage]
    refine iff_of_false agree_ok_error fun hnil => ?_
    -- only `..` would be left, and it has no percent sign
    have hups : ∀ s ∈ fromHere l, s = dotDot := Segments.eq_up_of_rooted_nil rfl hnil
    rw [hX] at hpercent
    cases hkept : fromHere l with
    | nil =>
      rw [hkept] at hpercent
      revert hpercent
      decide
    | cons s rest =>
      rw [hkept] at hpercent
      rcases mem_join hpercent with hc | ⟨t, ht, hc⟩
      · exact absurd hc (by decide)
      · rw [hups t (by rw [← hkept] at ht; exact ht)] at hc
        revert hc
        decide
  · rw [hok hpercent, agree_ok, hnormal, normalizePath_filePath hback hstart,
      fileForm_eq_unc_iff (partsOf_nativeParts hclean) (partsOf_names_text hback), hnames]
    exact ⟨fun hc => hc.2, fun hnil => ⟨hbelow hnil, hnil⟩⟩

/-- A drive behind `file://` is never a root. -/
theorem not_agree_file_drive {p : LocalPath} (hroot : p.root.isRooted = true) {clean X : Text}
    {letter : Char} (hletter : letter.isAlpha = true) {parts : List Text}
    (hclean : '\\' ∉ clean) (hplain : Plain X) (hparts : PartsOf (.drive letter false) parts)
    (hX : X = (LocalRoot.drive letter false).render parts) :
    ¬ Agree (nativeFile p.text clean) (normalizeRepositoryUri ("file://".toList ++ X)) := by
  obtain ⟨u, hu, hnormal⟩ := nativeFile_eq hroot hclean
  obtain ⟨herror, hok⟩ := script_fileText hplain
  rw [hu]
  by_cases hpercent : '%' ∈ X
  · obtain ⟨message, hmessage⟩ := herror hpercent
    rw [hmessage]
    exact agree_ok_error
  have hback : '\\' ∉ X := by
    rw [hX]
    exact render_noBackslash hletter hparts
  have hslash : '/' ≠ letter := by
    rintro rfl
    exact absurd hletter (by decide)
  have hstart : startsWith ['/'] X = false := by
    rw [hX]
    cases parts <;> simp [LocalRoot.render, hslash]
  have hnames : belowRoot (names X) ≠ [] := by
    have hplainName : names [letter, ':'] = [[letter, ':']] := names_plain (by simp [hslash])
    have hpush : Segments.push isDot dotDot false [] [letter, ':'] = [[letter, ':']] := by
      simp [Segments.push, isDot, dotDot]
    have hup : dotDot ∉ parts := hparts.normal.not_mem_up
    rw [hX, belowRoot, Segments.resolve]
    cases parts with
    | nil =>
      change (names [letter, ':']).foldl _ _ ≠ []
      rw [hplainName, List.foldl_cons, hpush]
      simp
    | cons s parts =>
      have happend := names_append_slash [letter, ':'] (join (s :: parts))
      change (names ([letter, ':'] ++ '/' :: join (s :: parts))).foldl _ _ ≠ []
      have hkept : Segments.resolve isDot dotDot true (s :: parts) = s :: parts :=
        Segments.resolve_of_normal (Segments.normal_of_plain hparts.normal.kept hup)
      rw [happend, hplainName, names_join hparts.noSlash (by simp), List.singleton_append,
        List.foldl_cons, hpush, Segments.foldl_push_frame (by rw [hkept]; exact hup)]
      simp
  rw [hok hpercent, agree_ok, hnormal, normalizePath_filePath hback hstart,
    fileForm_eq_unc_iff (partsOf_nativeParts hclean) (partsOf_names_text hback)]
  exact fun hc => hnames hc.2

/-- The parts of a `file` base hold no percent sign and no NUL. -/
structure PlainParts (p : LocalPath) : Prop where
  noPercent : ∀ s ∈ p.parts, '%' ∉ s
  noNul : ∀ s ∈ p.parts, nul ∉ s

theorem plain_scriptRaw {p : LocalPath} (hroot : p.root = .absolute ∨ p.root = .unc)
    (h : PlainParts p) : Plain (scriptRaw p) := by
  have hchar : ∀ c : Char, c ≠ '/' → c ≠ '.' → c ∈ scriptRaw p → ∃ s ∈ p.parts, c ∈ s := by
    intro c hslash hdot hmem
    have hjoin : c ∈ join p.parts := by
      obtain ⟨root, parts, hwf, hparts⟩ := p
      simp only at hroot
      rcases hroot with rfl | rfl <;> cases parts <;>
        simp_all [scriptRaw, scriptText, scriptRender, LocalRoot.render]
    exact (mem_join hjoin).resolve_left hslash
  constructor
  · intro hmem
    obtain ⟨s, hs, hc⟩ := hchar nul (by decide) (by decide) hmem
    exact h.noNul s hs hc
  · intro hescape
    obtain ⟨s, hs, hc⟩ := hchar '%' (by decide) (by decide) hescape.percent
    exact h.noPercent s hs hc

theorem Plain.append_slash {a b : Text} (ha : Plain a) (hb : Plain b) : Plain (a ++ '/' :: b) := by
  constructor
  · intro hmem
    rcases List.mem_append.mp hmem with hmem | hmem
    · exact ha.noNul hmem
    · exact hb.noNul (by simpa [nul] using hmem)
  · intro hescape
    exact hescape.append_slash.elim ha.noEscape hb.noEscape

/-- The relative path with the parts of another path. -/
def LocalPath.asRelative (p : LocalPath) (h : p.root ≠ .relative) : LocalPath where
  root := .relative
  parts := p.parts
  wellFormed := trivial
  partsOf := p.partsOf.reroot h

theorem agree_file_absolute {p : LocalPath} (hroot : p.root = .absolute) (hp : PlainParts p)
    {clean : Text} (hclean : Plain clean) (h : '\\' ∉ clean) :
    Agree (nativeFile p.text clean) (normalizeRepositoryUri
      ("file://".toList ++ normalizePath (scriptRaw p ++ '/' :: clean))) ↔
        FileJoinAgrees p clean := by
  have hrooted : p.root.isRooted = true := by rw [hroot]; rfl
  have hraw : scriptRaw p = scriptText p := by simp [scriptRaw, hroot]
  have hplain := ((plain_scriptRaw (Or.inl hroot) hp).append_slash hclean).normalizePath
  rw [hraw] at hplain ⊢
  have hcond : FileJoinAgrees p clean ↔ if p.parts = [] then belowRoot (names clean) = []
      else (∀ s ∈ belowRoot (p.parts ++ names clean), '%' ∉ s) ∧
        (startsWith ['/'] clean = true →
          belowRoot (names clean) = belowRoot (p.parts ++ names clean)) := by
    unfold FileJoinAgrees
    rw [hroot]
  rw [hcond]
  by_cases hne : p.parts = []
  · have htext : scriptText p = ['.'] := by
      rw [scriptText, hroot, hne]
      rfl
    rw [if_pos hne]
    refine agree_file_relative hrooted h hplain (partsOf_fromHere (l := []) (by simp) (by simp) h)
      (by rw [htext]; exact normalizePath_dot h) fun hnil => ?_
    rw [nativeParts, hne]
    split_ifs <;> exact hnil
  · rw [if_neg hne, ← nativeParts_eq_iff]
    have hparts := partsOf_belowRoot (p := p) h
    have hX := script_absolute hroot hne h
    obtain ⟨u, hu, hnormal⟩ := nativeFile_eq hrooted h
    obtain ⟨herror, hok⟩ := script_fileText hplain
    rw [hu]
    rw [hX] at herror hok ⊢
    cases hkept : belowRoot (p.parts ++ names clean) with
    | nil =>
      rw [hkept] at hok
      rw [hok (by simp [scriptRender]), agree_ok, hnormal]
      have hpath : normalizePath (filePath (scriptRender .absolute [])) = LocalRoot.unc.render [] :=
        rfl
      rw [hpath, fileForm_eq_unc_iff (partsOf_nativeParts h)
        ⟨by simp, by simp, Segments.normal_nil⟩]
      simp
    | cons s rest =>
      rw [hkept] at hparts herror hok
      have htext : scriptRender .absolute (s :: rest) = '/' :: join (s :: rest) := rfl
      rw [htext] at herror hok ⊢
      by_cases hpercent : '%' ∈ '/' :: join (s :: rest)
      · obtain ⟨message, hmessage⟩ := herror hpercent
        rw [hmessage]
        refine iff_of_false agree_ok_error fun hc => ?_
        have hjoin : '%' ∈ join (s :: rest) := by simpa using hpercent
        rcases mem_join hjoin with hslash | ⟨t, ht, hmem⟩
        · exact absurd hslash (by decide)
        · exact hc.1 t ht hmem
      · have hall : ∀ t ∈ s :: rest, '%' ∉ t := fun t ht hmem =>
          hpercent (List.mem_cons_of_mem _ (mem_join_of_mem ht hmem))
        have hpath : normalizePath (filePath ('/' :: join (s :: rest))) = '/' :: join (s :: rest) := by
          have hback : '\\' ∉ '/' :: join (s :: rest) := by simpa using join_noBackslash hparts
          rw [filePath, if_pos (by rfl), normalizePath_of_noBackslash hback,
            readRoot_absolute (join_startsWith_slash hparts)]
          simp only [localParts_join hparts]
          rfl
        rw [hok hpercent, agree_ok, hnormal, hpath, and_iff_right hall]
        have hform : scriptFileForm ('/' :: join (s :: rest)) =
            RepositoryUri.fileForm ('/' :: join (s :: rest)) := rfl
        rw [hform]
        constructor
        · intro heq
          have hstart := join_startsWith_slash hparts
          have hstart' := join_startsWith_slash (partsOf_nativeParts (p := p) h)
          simp only [RepositoryUri.fileForm, startsWith_cons_cons, hstart, hstart', Bool.and_false,
            Bool.false_eq_true, if_false, List.append_cancel_left_eq, List.cons.injEq,
            true_and] at heq
          exact join_injective (partsOf_nativeParts h) hparts heq
        · intro heq
          rw [heq]

theorem agree_file_unc {p : LocalPath} (hroot : p.root = .unc) (hp : PlainParts p)
    {clean : Text} (hclean : Plain clean) (h : '\\' ∉ clean) :
    Agree (nativeFile p.text clean) (normalizeRepositoryUri
      ("file://".toList ++ normalizePath (scriptRaw p ++ '/' :: clean))) ↔
        FileJoinAgrees p clean := by
  have hrooted : p.root.isRooted = true := by rw [hroot]; rfl
  have hplain := ((plain_scriptRaw (Or.inr hroot) hp).append_slash hclean).normalizePath
  have hcond : FileJoinAgrees p clean ↔ p.parts ≠ [] ∧ belowRoot (p.parts ++ names clean) = [] ∧
      isWindowsDrivePath (join p.parts) = false := by
    unfold FileJoinAgrees
    rw [hroot]
  rw [hcond]
  by_cases hne : p.parts = []
  · refine iff_of_false ?_ fun hc => hc.1 hne
    have hraw : scriptRaw p = scriptText p := by simp [scriptRaw, hne]
    have hX := script_unc hroot h
    have hparts := partsOf_belowRoot (p := p) h
    rw [hraw] at hplain ⊢
    obtain ⟨u, hu, hnormal⟩ := nativeFile_eq hrooted h
    obtain ⟨herror, hok⟩ := script_fileText hplain
    rw [hu]
    rw [hX] at herror hok ⊢
    by_cases hpercent : '%' ∈ LocalRoot.unc.render (belowRoot (p.parts ++ names clean))
    · obtain ⟨message, hmessage⟩ := herror hpercent
      rw [hmessage]
      exact agree_ok_error
    rw [hok hpercent, agree_ok, hnormal]
    cases hkept : belowRoot (p.parts ++ names clean) with
    | nil =>
      rw [nativeParts_nil hkept]
      decide
    | cons s rest =>
      rw [hkept] at hparts
      have hparts' : PartsOf .unc (s :: rest) := hparts.reroot (by simp)
      have hpath : normalizePath (filePath (LocalRoot.unc.render (s :: rest))) =
          LocalRoot.unc.render (s :: rest) := by
        have hback : '\\' ∉ LocalRoot.unc.render (s :: rest) := render_noBackslash trivial hparts'
        rw [filePath, if_pos (by rfl), normalizePath_of_noBackslash hback]
        change scriptRender .unc (localParts .unc (join (s :: rest))) = _
        rw [localParts_join hparts']
        rfl
      rw [hpath, fileForm_eq_unc_iff (partsOf_nativeParts h) hparts']
      simp
  · have hraw : scriptRaw p = join p.parts := by simp [scriptRaw, hroot, hne]
    have hnotrel : p.root ≠ .relative := by simp [hroot]
    have htext : scriptText (LocalPath.asRelative p hnotrel) = join p.parts := by
      obtain ⟨s, rest, hparts⟩ := List.exists_cons_of_ne_nil hne
      simp [scriptText, LocalPath.asRelative, hparts, scriptRender_cons, LocalRoot.render]
    have htext' : (LocalPath.asRelative p hnotrel).text = join p.parts := by
      obtain ⟨s, rest, hparts⟩ := List.exists_cons_of_ne_nil hne
      simp [LocalPath.text, LocalPath.asRelative, hparts, LocalRoot.render]
    rw [hraw] at hplain ⊢
    rw [and_iff_right hne]
    by_cases hdrive : isWindowsDrivePath (join p.parts) = true
    · refine iff_of_false ?_ fun hc => by simp [hdrive] at hc
      obtain ⟨letter, x, rest, hsegments, hletter, hparts, hscript⟩ :=
        segments_of_drive (p := LocalPath.asRelative p hnotrel) (by rw [htext', hdrive])
      have hX := script_drive hletter hparts hscript h
      rw [htext] at hX
      have hslash : ∀ s ∈ x :: rest, '/' ∉ s := by
        intro s hs
        rcases List.mem_cons.mp hs with rfl | hs
        · have := hparts.noSlash _ List.mem_cons_self
          simp only [List.mem_cons, not_or] at this
          exact this.2.2
        · exact hparts.noSlash s (List.mem_cons_of_mem _ hs)
      have hback : ∀ s ∈ x :: rest, '\\' ∉ s := by
        intro s hs
        rcases List.mem_cons.mp hs with rfl | hs
        · have := hparts.noBackslash _ List.mem_cons_self
          simp only [List.mem_cons, not_or] at this
          exact this.2.2
        · exact hparts.noBackslash s (List.mem_cons_of_mem _ hs)
      exact not_agree_file_drive hrooted hletter h hplain
        (show PartsOf (.drive letter false) _ from partsOf_resolve hslash hback h) hX
    · have hX := script_relative (p := LocalPath.asRelative p hnotrel) rfl
        (by rw [htext']; simpa using hdrive) h
      rw [htext] at hX
      rw [agree_file_relative hrooted h hplain
        (partsOf_fromHere p.partsOf.noSlash p.partsOf.noBackslash h) hX nativeParts_nil,
        and_iff_left (by simpa using hdrive)]

/-- A reference to a `file` URI is joined in the same way exactly under this condition. -/
theorem agree_file_iff {p : LocalPath} (hroot : p.root = .absolute ∨ p.root = .unc)
    (hp : PlainParts p) {clean : Text} (hclean : Plain clean) (h : '\\' ∉ clean) :
    Agree (nativeFile p.text clean) (normalizeRepositoryUri
      ("file://".toList ++ normalizePath (scriptRaw p ++ '/' :: clean))) ↔
        FileJoinAgrees p clean :=
  hroot.elim (fun hroot => agree_file_absolute hroot hp hclean h)
    fun hroot => agree_file_unc hroot hp hclean h

end Ilic.RepositoryCore
