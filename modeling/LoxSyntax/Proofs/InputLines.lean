import LoxSyntax.CommandLine

/-!
The lines of an input. A text is cut into lines at the bytes of its newlines, which are the bytes
of no other character, so the prompt reads the bytes of each line of a text, and of nothing else.
-/

namespace LoxSyntax

/-- The lines of a text. Each ends in the only newline that it has, but the last line may lack
one. -/
inductive Lines : List String → Prop
  | nil : Lines []
  | last {line : String} (hne : line ≠ "") (hline : '\n' ∉ line.toList) : Lines [line]
  | cons {line : String} {body : List Char} {later : List String}
      (hline : line.toList = body ++ ['\n']) (hbody : '\n' ∉ body) (h : Lines later) :
      Lines (line :: later)

section Bytes

theorem toList_loop_append (bytes : ByteArray) (i : Nat) (read : List UInt8) :
    ByteArray.toList.loop bytes i read = read.reverse ++ bytes.data.toList.drop i := by
  fun_induction ByteArray.toList.loop bytes i read with
  | case1 i read hi ih =>
    have hlength : i < bytes.data.toList.length := by simpa using hi
    rw [ih, List.drop_eq_getElem_cons hlength]
    simp [ByteArray.get!, hi]
  | case2 i read hi =>
    rw [List.drop_eq_nil_of_le (by simpa using Nat.le_of_not_lt hi), List.append_nil]

theorem toList_eq_data_toList (bytes : ByteArray) : bytes.toList = bytes.data.toList :=
  toList_loop_append bytes 0 []

/-- The bytes of a text are those of its characters. -/
theorem toList_toUTF8 (text : String) :
    text.toUTF8.toList = text.toList.flatMap String.utf8EncodeChar := by
  rw [toList_eq_data_toList, String.toUTF8, ← String.utf8Encode_toList, List.utf8Encode,
    List.toList_data_toByteArray]

theorem mk_toArray_toList (bytes : ByteArray) : (⟨bytes.toList.toArray⟩ : ByteArray) = bytes := by
  rw [toList_eq_data_toList]

theorem fromUTF8?_toUTF8 (text : String) : String.fromUTF8? text.toUTF8 = some text := by
  rw [String.fromUTF8?, dif_pos]
  rfl

theorem newline_not_mem_ofNat (values : List Nat) (h : ∀ n ∈ values, n % 256 ≠ 10) :
    10 ∉ values.map UInt8.ofNat := by
  intro hmem
  obtain ⟨n, hn, heq⟩ := List.mem_map.1 hmem
  have hnat := congrArg UInt8.toNat heq
  rw [UInt8.toNat_ofNat'] at hnat
  exact h n hn hnat

/-- The byte of a newline is part of no other character. -/
theorem newline_not_mem_utf8EncodeChar {c : Char} (h : c ≠ '\n') :
    10 ∉ String.utf8EncodeChar c := by
  have hval : c.val.toNat ≠ 10 := fun heq => h (Char.ext (UInt32.toNat_inj.1 heq))
  unfold String.utf8EncodeChar
  generalize c.val.toNat = v at hval
  dsimp only
  -- one byte, or up to four of which none is below 128
  split
  · exact newline_not_mem_ofNat [v] (by simp; omega)
  split
  · exact newline_not_mem_ofNat [v / 64 % 32 + 192, v % 64 + 128] (by simp; omega)
  split
  · exact newline_not_mem_ofNat [v / 4096 % 16 + 224, v / 64 % 64 + 128, v % 64 + 128]
      (by simp; omega)
  · exact newline_not_mem_ofNat [v / 262144 % 8 + 240, v / 4096 % 64 + 128, v / 64 % 64 + 128,
      v % 64 + 128] (by simp; omega)

theorem newline_not_mem_flatMap {text : List Char} (h : '\n' ∉ text) :
    10 ∉ text.flatMap String.utf8EncodeChar := by
  intro hmem
  obtain ⟨c, hc, hbyte⟩ := List.mem_flatMap.1 hmem
  exact newline_not_mem_utf8EncodeChar (fun heq => h (heq ▸ hc)) hbyte

end Bytes

section Cuts

variable {bytes : List UInt8}

theorem inputLines_of_not_mem (hne : bytes ≠ []) (h : 10 ∉ bytes) : inputLines bytes = [bytes] := by
  induction bytes with
  | nil => exact absurd rfl hne
  | cons b rest ih =>
    have hb : b ≠ 10 := fun heq => h (heq ▸ List.mem_cons_self)
    rw [inputLines, if_neg hb]
    by_cases hrest : rest = []
    · rw [hrest]
      rfl
    · rw [ih hrest fun hmem => h (List.mem_cons_of_mem b hmem)]

theorem inputLines_append_newline (h : 10 ∉ bytes) (rest : List UInt8) :
    inputLines (bytes ++ [10] ++ rest) = (bytes ++ [10]) :: inputLines rest := by
  induction bytes with
  | nil => rfl
  | cons b later ih =>
    have hb : b ≠ 10 := fun heq => h (heq ▸ List.mem_cons_self)
    have hlater := ih fun hmem => h (List.mem_cons_of_mem b hmem)
    rw [List.cons_append, List.cons_append, inputLines, if_neg hb, hlater]

/-- The bytes of a text are cut into those of its lines. -/
theorem inputLines_join {lines : List String} (h : Lines lines) :
    inputLines (String.join lines).toUTF8.toList = lines.map (·.toUTF8.toList) := by
  induction h with
  | nil => rw [toList_toUTF8, String.toList_join]; rfl
  | @last line hne hline =>
    have hbytes : line.toList.flatMap String.utf8EncodeChar ≠ [] := by
      intro hnil
      refine hne (String.toList_inj.1 (List.eq_nil_iff_forall_not_mem.2 fun c hc => ?_))
      have hencoded := List.flatMap_eq_nil_iff.1 hnil c hc
      exact String.utf8EncodeChar_ne_nil hencoded
    rw [toList_toUTF8, String.toList_join, List.flatMap_singleton,
      inputLines_of_not_mem hbytes (newline_not_mem_flatMap hline)]
    simp only [List.map_cons, List.map_nil, toList_toUTF8]
  | @cons line body later hline hbody h ih =>
    have hfirst : line.toUTF8.toList = body.flatMap String.utf8EncodeChar ++ [10] := by
      rw [toList_toUTF8, hline, List.flatMap_append]
      rfl
    have hwhole : (String.join (line :: later)).toUTF8.toList =
        line.toUTF8.toList ++ (String.join later).toUTF8.toList := by
      rw [String.join_cons, toList_toUTF8, String.toList_append, List.flatMap_append,
        ← toList_toUTF8, ← toList_toUTF8]
    rw [hwhole, hfirst, inputLines_append_newline (newline_not_mem_flatMap hbody), ih,
      List.map_cons, hfirst]

end Cuts

namespace Options

/-- The prompt answers every line that is a text. -/
theorem session_toUTF8 (options : Options) (lines : List String) :
    options.session (lines.map String.toUTF8) =
      .success (String.join (lines.map fun line => promptText ++ options.reply line) ++
        promptText) := by
  induction lines with
  | nil => rfl
  | cons line later ih =>
    rw [List.map_cons, session, fromUTF8?_toUTF8]
    dsimp only
    rw [ih, List.map_cons, String.join_cons, String.append_assoc]
    rfl

/-- At the prompt the lines of a text are answered one after another. -/
theorem session_inputLines (options : Options) {lines : List String} (h : Lines lines) :
    options.session ((inputLines (String.join lines).toUTF8.toList).map fun bytes =>
        ⟨bytes.toArray⟩) =
      .success (String.join (lines.map fun line => promptText ++ options.reply line) ++
        promptText) := by
  rw [inputLines_join h, List.map_map, ← session_toUTF8]
  exact congrArg options.session (List.map_congr_left fun line _ => mk_toArray_toList line.toUTF8)

/-- A run on a file that holds a text shows the answer to the text. -/
theorem fileRun_of_answer {options : Options} {source shown : String}
    (h : options.answer source = ⟨shown, none⟩) :
    options.fileRun (.ok source.toUTF8) = .success shown := by
  simp only [fileRun, fromUTF8?_toUTF8, h]

theorem fileRun_of_report {options : Options} {source shown report : String}
    (h : options.answer source = ⟨shown, some report⟩) :
    options.fileRun (.ok source.toUTF8) = .failure shown report := by
  simp only [fileRun, fromUTF8?_toUTF8, h]

end Options

end LoxSyntax
