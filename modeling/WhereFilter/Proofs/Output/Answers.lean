import WhereFilter.CommandLine
import WhereFilter.Text.Bytes
import WhereFilter.Proofs.Text.Lines
import WhereFilter.Proofs.Output.Outcome

namespace WhereFilter

namespace Text

theorem data_utf8Encode (t : Text) : t.utf8Encode.data.toList = bytes t := by
  simp [List.utf8Encode, bytes]

theorem feed_mem_bytes {t : Text} (h : '\n' ∈ t) : 10 ∈ bytes t := by
  obtain ⟨s, r, rfl⟩ := List.append_of_mem h
  have hfeed : String.utf8EncodeChar '\n' = [10] := by decide
  simp [hfeed]

end Text

namespace CommandLine

theorem decode?_eq_some {l : List UInt8} {t : Text} : decode? l = some t ↔ l = t.bytes := by
  have he : (⟨l.toArray⟩ : ByteArray) = t.utf8Encode ↔ l = t.bytes := by
    constructor
    · intro h
      rw [← Text.data_utf8Encode, ← h]
    · rintro rfl
      rw [← Text.data_utf8Encode]
  rw [decode?, Option.map_eq_some_iff, ← he]
  constructor
  · rintro ⟨s, hs, rfl⟩
    unfold String.fromUTF8? at hs
    split at hs
    · next hv =>
      cases hs
      exact (String.utf8Encode_toList (b := .fromUTF8 _ hv)).symm
    · cases hs
  · intro h
    refine ⟨String.ofList t, ?_, String.toList_ofList⟩
    rw [h, String.fromUTF8?, dif_pos ByteArray.isValidUTF8_utf8Encode]
    rfl

/-- Reading goes as far as the texts go, and stops at the first line that is none. -/
theorem readable_eq_iff {ls : List (List UInt8)} {read : List Text} {failed : Bool} :
    readable ls = (read, failed) ↔ ∃ unread, ls = read.map Text.bytes ++ unread ∧
      (∀ l, unread.head? = some l → ∀ t : Text, l ≠ t.bytes) ∧
      (failed = true ↔ unread ≠ []) := by
  constructor
  · intro h
    induction ls generalizing read with
    | nil =>
      cases h
      exact ⟨[], rfl, by simp, by simp⟩
    | cons l ls ih =>
      rw [readable] at h
      cases hd : decode? l with
      | none =>
        simp only [hd, Prod.mk.injEq] at h
        obtain ⟨rfl, rfl⟩ := h
        refine ⟨l :: ls, rfl, ?_, by simp⟩
        intro l' hl t ht
        cases hl
        rw [decode?_eq_some.mpr ht] at hd
        cases hd
      | some line =>
        simp only [hd, Prod.mk.injEq] at h
        obtain ⟨rfl, hf⟩ := h
        obtain ⟨unread, hls, hhead, hfailed⟩ := ih (Prod.ext rfl hf)
        refine ⟨unread, ?_, hhead, hfailed⟩
        rw [List.map_cons, List.cons_append, ← hls, ← decode?_eq_some.mp hd]
  · rintro ⟨unread, rfl, hhead, hfailed⟩
    induction read with
    | nil =>
      cases unread with
      | nil => simpa [readable] using hfailed
      | cons l unread =>
        have hd : decode? l = none :=
          Option.eq_none_iff_forall_not_mem.mpr fun t ht => hhead l rfl t (decode?_eq_some.mp ht)
        simpa [readable, hd] using hfailed
    | cons line read ih =>
      rw [List.map_cons, List.cons_append, readable, decode?_eq_some.mpr rfl, ih]

theorem exitCode_eq_one {failed : Bool} : exitCode failed = 1 ↔ failed = true := by
  cases failed <;> simp [exitCode]

/-- What a text stands for behind the `=` of an argument. -/
inductive Reads : Text → Value → Prop
  | yes {t : Text} (h : t ∈ ["true".toList, "Y".toList]) : Reads t (.yesNo true)
  | no {t : Text} (h : t ∈ ["false".toList, "N".toList]) : Reads t (.yesNo false)
  | number {t : Text} {x : Binary64}
      (hw : t ∉ ["true".toList, "Y".toList, "false".toList, "N".toList])
      (h : Binary64.read? t = some x) : Reads t (.number x)
  | text {t : Text} (hw : t ∉ ["true".toList, "Y".toList, "false".toList, "N".toList])
      (h : Binary64.read? t = none) : Reads t (.text t)

theorem reads_readValue (t : Text) : Reads t (readValue t) := by
  unfold readValue
  split_ifs with hyes hno
  · exact .yes (by simpa using hyes)
  · exact .no (by simpa using hno)
  · have hw : t ∉ ["true".toList, "Y".toList, "false".toList, "N".toList] := by
      simp only [List.mem_cons, List.not_mem_nil, or_false]
      tauto
    split
    · next x h => exact .number hw h
    · next h => exact .text hw h

theorem readValue_eq_iff {t : Text} {v : Value} : readValue t = v ↔ Reads t v := by
  constructor
  · rintro rfl
    exact reads_readValue t
  · intro h
    cases h with
    | yes h =>
      rw [readValue, if_pos (by simpa using h)]
    | no h =>
      rw [List.mem_cons, List.mem_singleton] at h
      rcases h with rfl | rfl <;> rfl
    | number hw h =>
      simp only [List.mem_cons, List.not_mem_nil, or_false, not_or] at hw
      simp only [readValue, hw, or_self, if_false, h]
    | text hw h =>
      simp only [List.mem_cons, List.not_mem_nil, or_false, not_or] at hw
      simp only [readValue, hw, or_self, if_false, h]

/-- The last of the arguments that bind `n` has the value `v`. -/
def Given (arguments : List Text) (n : Text) (v : Value) : Prop :=
  ∃ before value after, arguments = before ++ (n ++ '=' :: value) :: after ∧ '=' ∉ n ∧
    Reads value v ∧ ∀ a ∈ after, ¬ n ++ ['='] <+: a

theorem binding?_eq_some {a n : Text} {v : Value} :
    binding? a = some (n, v) ↔ ∃ value, a = n ++ '=' :: value ∧ '=' ∉ n ∧ Reads value v := by
  simp only [binding?, Option.map_eq_some_iff, Prod.exists, cutFirst?_eq_some, Prod.mk.injEq,
    ← readValue_eq_iff]
  constructor
  · rintro ⟨_, value, ⟨rfl, hn⟩, rfl, rfl⟩
    exact ⟨value, rfl, hn, rfl⟩
  · rintro ⟨value, rfl, hn, rfl⟩
    exact ⟨n, value, ⟨rfl, hn⟩, rfl, rfl⟩

theorem binding?_of_prefix {a n : Text} (hn : '=' ∉ n) (h : n ++ ['='] <+: a) :
    ∃ v, binding? a = some (n, v) := by
  obtain ⟨value, rfl⟩ := h
  exact ⟨readValue value, binding?_eq_some.mpr ⟨value, by simp, hn, reads_readValue value⟩⟩

theorem bindings_concat (arguments : List Text) (a : Text) :
    bindings (arguments ++ [a]) = match binding? a with
      | none => bindings arguments
      | some (n, v) => (bindings arguments).insert n v := by
  rw [bindings, List.filterMap_append, Keyed.ofList, List.foldl_append]
  cases ha : binding? a with
  | none => simp [ha, bindings, Keyed.ofList]
  | some e => simp [ha, bindings, Keyed.ofList]

theorem given_concat {arguments : List Text} {a n : Text} {v : Value} :
    Given (arguments ++ [a]) n v ↔
      binding? a = some (n, v) ∨ (∀ w, binding? a ≠ some (n, w)) ∧ Given arguments n v := by
  constructor
  · rintro ⟨before, value, after, he, hn, hv, hafter⟩
    cases after using List.reverseRecOn with
    | nil =>
      obtain ⟨rfl, hlast⟩ := List.append_inj' he rfl
      cases hlast
      exact .inl (binding?_eq_some.mpr ⟨value, rfl, hn, hv⟩)
    | append_singleton after a' _ =>
      rw [← List.cons_append, ← List.append_assoc] at he
      obtain ⟨rfl, hlast⟩ := List.append_inj' he rfl
      cases hlast
      refine .inr ⟨?_, before, value, after, rfl, hn, hv, fun c hc => hafter c (by simp [hc])⟩
      intro w hw
      obtain ⟨value', rfl, -, -⟩ := binding?_eq_some.mp hw
      exact hafter (n ++ '=' :: value') (by simp) ⟨value', by simp⟩
  · rintro (ha | ⟨ha, before, value, after, rfl, hn, hv, hafter⟩)
    · obtain ⟨value, rfl, hn, hv⟩ := binding?_eq_some.mp ha
      exact ⟨arguments, value, [], rfl, hn, hv, by simp⟩
    · refine ⟨before, value, after ++ [a], by simp, hn, hv, ?_⟩
      intro c hc hp
      rcases List.mem_append.mp hc with hc | hc
      · exact hafter c hc hp
      · rw [List.mem_singleton.mp hc] at hp
        obtain ⟨w, hw⟩ := binding?_of_prefix hn hp
        exact ha w hw

/-- Arguments bind what stands before their first `=`, and later ones win. -/
theorem get?_bindings {arguments : List Text} {n : Text} {v : Value} :
    (bindings arguments).get? n = some v ↔ Given arguments n v := by
  induction arguments using List.reverseRecOn with
  | nil => simp [bindings, Given, Keyed.ofList]
  | append_singleton arguments a ih =>
    rw [given_concat, bindings_concat]
    cases ha : binding? a with
    | none => simpa using ih
    | some e =>
      obtain ⟨m, w⟩ := e
      rw [Keyed.get?_insert]
      by_cases hm : m = n
      · simp [hm]
      · simp [hm, ih]

theorem newline_not_mem_answer (b : Bindings) {line : Text} (h : '\n' ∉ line) :
    '\n' ∉ answer b line := by
  have hrefused : ∀ e : Refusal, '\n' ∉ e.message → '\n' ∉ "Not translated: ".toList ++ e.message :=
    fun e he => List.not_mem_append (by simp) he
  unfold answer
  obtain ⟨t, ht⟩ | ⟨phrase, ht, hp⟩ | ⟨name, ht, hn⟩ | ⟨e, ht, he⟩ := translate_cases b line
  · rw [ht]
    intro hm
    exact absurd (Text.eq_space_of_mem_respace hm (by decide)) (by decide)
  · rw [ht]
    exact hrefused _ (List.not_mem_append (by simp) fun hm => h (hp.subset hm))
  · rw [ht]
    have hname : '\n' ∉ name := fun hm => absurd (hn.2 _ hm) (by decide)
    exact hrefused _
      (List.not_mem_append (List.not_mem_append (by simp) hname) (by simp))
  · rw [ht]
    exact hrefused _ (newline_not_mem_late he)

theorem newline_not_mem_outputLine (micros : Nat) {answer : Text} (h : '\n' ∉ answer) :
    '\n' ∉ outputLine micros answer :=
  List.not_mem_append (List.not_mem_append (List.not_mem_append (by simp)
    (newline_not_mem_digits micros)) (by simp)) h

/-- The lines before the first that is not UTF-8 are answered one by one, each on a line of
its own and from the bindings of the arguments alone. -/
theorem run_line_by_line (arguments : List Text) (input : List UInt8) (micros : Nat → Nat) :
    (∀ n v, (bindings arguments).get? n = some v ↔ Given arguments n v) ∧
    ∃ (read shown : List Text) (unread : List (List UInt8)),
      Lined 10 13 input (read.map Text.bytes ++ unread) ∧
      (∀ l, unread.head? = some l → ∀ t : Text, l ≠ t.bytes) ∧
      (shown = read.mapIdx fun i line =>
        "[in ".toList ++ Digits.ofNat (micros i) ++ "μs] ".toList ++
          match translate (bindings arguments) line with
          | .ok filter => filter
          | .error reason => "Not translated: ".toList ++ reason.message) ∧
      (∀ l ∈ shown, '\n' ∉ l) ∧
      (run arguments input).output micros = (shown.map (· ++ ['\n'])).flatten ∧
      (exitCode (run arguments input).failed = 1 ↔ unread ≠ []) := by
  refine ⟨fun n v => get?_bindings, ?_⟩
  obtain ⟨unread, hlines, hhead, hfailed⟩ :=
    readable_eq_iff.mp (rfl : inputLines input = ((inputLines input).1, (inputLines input).2))
  have hlined : Lined 10 13 input ((inputLines input).1.map Text.bytes ++ unread) :=
    hlines ▸ lined_lines 10 13 input
  refine ⟨(inputLines input).1, _, unread, hlined, hhead, rfl, ?_, ?_, ?_⟩
  · intro l hl
    obtain ⟨i, hi, rfl⟩ := List.mem_mapIdx.mp hl
    refine newline_not_mem_outputLine _ (newline_not_mem_answer _ fun hm => ?_)
    exact hlined.feed_not_mem _
      (List.mem_append_left _ (List.mem_map_of_mem (List.getElem_mem hi))) (Text.feed_mem_bytes hm)
  · rw [Report.output]
    congr 1
    refine List.ext_getElem (by simp [run]) fun i _ _ => ?_
    simp only [run, List.getElem_mapIdx, List.getElem_map]
    rfl
  · exact exitCode_eq_one.trans hfailed

/-- Two names, one of them bound twice, a number, and an argument that binds nothing. -/
def shopArguments : List Text :=
  ["Note=it=\n1".toList, "verbose".toList, "Sales=Y".toList, "Org=11".toList, "Sales=N".toList]

/-- Lines with all kinds of answers, up to one that is not UTF-8. -/
def shopInput : List UInt8 :=
  Text.bytes ("Note = '@Note@'\r\nIsSales=@Sales@ AND Org=@#Org@\n\nA='it''s\n" ++
    "IsSales = '@Tax@'\nA IN (SELECT 1)\n").toList ++ 255 :: 10 :: Text.bytes "A=1\n".toList

/-- A value with a newline in it still leaves one line for each rule, and what comes behind the
unreadable line is not answered. -/
theorem run_line_by_line_shop :
    (run shopArguments shopInput).output (fun i => 8 + 3 * i) =
      ("[in 8μs] Note eq 'it= 1'\n" ++
        "[in 11μs] IsSales eq false and Org eq 11\n" ++
        "[in 14μs] Not translated: no filter left after simplification\n" ++
        "[in 17μs] Not translated: malformed fragment: " ++
          "Unterminated string literal starting at 2\n" ++
        "[in 20μs] Not translated: no binding for context variable @Tax@\n" ++
        "[in 23μs] Not translated: unsupported construct: SELECT\n").toList ∧
    exitCode (run shopArguments shopInput).failed = 1 := by
  obtain ⟨-, read, shown, unread, hlined, hhead, rfl, -, hout, hexit⟩ :=
    run_line_by_line shopArguments shopInput fun i => 8 + 3 * i
  have hread : readable (lines 10 13 shopInput) = (read, decide (unread ≠ [])) :=
    readable_eq_iff.mpr ⟨unread, (lined_iff (by decide)).mp hlined, hhead, by simp⟩
  have hlines : readable (lines 10 13 shopInput) =
      (["Note = '@Note@'".toList, "IsSales=@Sales@ AND Org=@#Org@".toList, [], "A='it''s".toList,
        "IsSales = '@Tax@'".toList, "A IN (SELECT 1)".toList], true) := by decide +kernel
  obtain ⟨rfl, hunread⟩ := Prod.mk.inj (hlines.symm.trans hread)
  refine ⟨hout.trans ?_, hexit.mpr (by simpa using hunread)⟩
  have hbindings : bindings shopArguments = .ofList [("Note".toList, .text "it=\n1".toList),
      ("Sales".toList, .yesNo true), ("Org".toList, .number (.ofInt 11)),
      ("Sales".toList, .yesNo false)] := congrArg Keyed.ofList (by decide +kernel)
  rw [hbindings]
  simp only [String.toList_append]
  decide +kernel

end CommandLine

end WhereFilter
