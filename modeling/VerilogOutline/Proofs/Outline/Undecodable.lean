import VerilogOutline.Outline
import VerilogOutline.Proofs.Comment.Placed
import VerilogOutline.Proofs.Text.Utf8

/-!
# Comments that cannot be decoded

The comments of a file may hold any bytes, also bytes that break off in the middle of a
character where the comment ends. The file has the outline of its text without them.
-/

namespace VerilogOutline

open Utf8 (encode)

namespace Comment

/-- A part of a file: a character of its text, or a comment that may hold any bytes. -/
inductive FilePart where
  | char (c : Char)
  | block (content : List UInt8)
  | line (content : List UInt8)
  deriving DecidableEq, Repr

namespace FilePart

/-- The bytes of the part. -/
def bytes : FilePart → List UInt8
  | char c => encode [c]
  | block content => encode "/*".toList ++ (content ++ encode "*/".toList)
  | line content => encode "//".toList ++ content

/-- The bytes of a block comment end it only at its end. Those of a line comment stay on
its line, and no block comment opens in it. -/
def Sound : FilePart → Prop
  | char _ => True
  | block content => ¬ encode "*/".toList <:+: content
  | line content => 0x0A ∉ content ∧ ¬ encode "/*".toList <:+: encode "//".toList ++ content

instance : DecidablePred Sound
  | char _ => inferInstanceAs (Decidable True)
  | block content => inferInstanceAs (Decidable (¬ encode "*/".toList <:+: content))
  | line content =>
    inferInstanceAs (Decidable
      (0x0A ∉ content ∧ ¬ encode "/*".toList <:+: encode "//".toList ++ content))

/-- The part without what the comment holds. -/
def emptied : FilePart → Part
  | char c => .char c
  | block _ => .block []
  | line _ => .line []

/-- The part as it is read, with what is undecodable replaced. -/
def read : FilePart → Part
  | char c => .char c
  | block content => .block (Utf8.text content).toList
  | line content => .line (Utf8.text content).toList

theorem read_sound {part : FilePart} (h : part.Sound) : part.read.Sound := by
  cases part with
  | char c => trivial
  | block content => exact fun hclose => h (Utf8.encode_isInfix_of_text (by decide) hclose)
  | line content =>
      obtain ⟨hline, hopen⟩ := h
      refine ⟨fun hnewline => hline (Utf8.mem_of_mem_text (by decide) hnewline), ?_⟩
      rw [← Utf8.toList_text_encode_append]
      exact fun hstart => hopen (Utf8.encode_isInfix_of_text (by decide) hstart)

end FilePart

/-- The bytes of a file with all of its parts. -/
def fileBytes (parts : List FilePart) : List UInt8 :=
  parts.flatMap FilePart.bytes

/-- The text of a file without its comments. -/
def fileText (parts : List FilePart) : List Char :=
  plain (parts.map FilePart.emptied)

/-- Comments stand in a file in such a way that each of them can be told from its text. -/
structure FilePlaced (parts : List FilePart) : Prop where
  sound : ∀ part ∈ parts, part.Sound
  lines : LinesPlaced none (parts.map FilePart.emptied)

instance : DecidablePred FilePlaced := fun parts =>
  decidable_of_iff
    ((∀ part ∈ parts, part.Sound) ∧ LinesPlaced none (parts.map FilePart.emptied))
    ⟨fun ⟨hsound, hlines⟩ => ⟨hsound, hlines⟩, fun ⟨hsound, hlines⟩ => ⟨hsound, hlines⟩⟩

variable {parts : List FilePart} {last? : Option Char}

theorem plain_map_read (parts : List FilePart) :
    plain (parts.map FilePart.read) = fileText parts := by
  rw [fileText, plain, plain, List.filterMap_map, List.filterMap_map]
  congr 1
  funext part
  cases part <;> rfl

/-- Where the line comments stand has nothing to do with what they hold. -/
theorem linesPlaced_read (h : LinesPlaced last? (parts.map FilePart.emptied)) :
    LinesPlaced last? (parts.map FilePart.read) := by
  induction parts generalizing last? with
  | nil => trivial
  | cons part parts ih =>
      cases part with
      | char c => exact ih h
      | block content => exact ih h
      | line content =>
          obtain ⟨hfront, hend, hlater⟩ := h
          refine ⟨hfront, ?_, ih hlater⟩
          cases parts with
          | nil => simp
          | cons next parts =>
              cases next with
              | char c => exact hend
              | block content => simp [FilePart.emptied] at hend
              | line content => simp [FilePart.emptied] at hend

/-- A line comment ends where the next line starts, whatever it holds. -/
theorem toList_text_line (content : List UInt8)
    (h : ∀ part ∈ (parts.map FilePart.emptied).head?, part = .char '\n') :
    (Utf8.text (content ++ fileBytes parts)).toList =
      (Utf8.text content).toList ++ (Utf8.text (fileBytes parts)).toList := by
  cases parts with
  | nil => simp [fileBytes, Utf8.toList_text, Utf8.decode, Utf8.decodeFrom]
  | cons part parts =>
      cases part with
      | char c =>
          obtain ⟨rfl⟩ := Part.char.inj (h _ rfl)
          exact Utf8.toList_text_append_cons (by decide) content (fileBytes parts)
      | block content => simp [FilePart.emptied] at h
      | line content => simp [FilePart.emptied] at h

/-- A file is read part by part. -/
theorem toList_text_fileBytes (h : LinesPlaced last? (parts.map FilePart.emptied)) :
    (Utf8.text (fileBytes parts)).toList = write (parts.map FilePart.read) := by
  induction parts generalizing last? with
  | nil => rfl
  | cons part parts ih =>
      rw [fileBytes, List.flatMap_cons, ← fileBytes, List.map_cons, write_cons]
      cases part with
      | char c => rw [FilePart.bytes, Utf8.toList_text_encode_append, ih h]; rfl
      | block content =>
          have hclose : (Utf8.text (content ++ (encode "*/".toList ++ fileBytes parts))).toList =
              (Utf8.text content).toList ++ ("*/".toList ++ (Utf8.text (fileBytes parts)).toList) :=
            Utf8.toList_text_append_encode (c := '*') (by decide) content ['/'] (fileBytes parts)
          rw [FilePart.bytes, List.append_assoc, List.append_assoc,
            Utf8.toList_text_encode_append, hclose, ih h, FilePart.read, Part.write,
            List.append_assoc, List.append_assoc]
      | line content =>
          obtain ⟨_, hend, hlater⟩ := h
          rw [FilePart.bytes, List.append_assoc, Utf8.toList_text_encode_append,
            toList_text_line content hend, ih hlater, FilePart.read, Part.write, List.append_assoc]

theorem FilePlaced.read (h : FilePlaced parts) : Placed (parts.map FilePart.read) where
  sound := by
    intro part hpart
    obtain ⟨filePart, hfilePart, rfl⟩ := List.mem_map.mp hpart
    exact FilePart.read_sound (h.sound filePart hfilePart)
  lines := linesPlaced_read h.lines

/-- Of the comments in a file nothing is left, whatever is undecodable in them. -/
theorem strip_fileBytes (h : FilePlaced parts) (hopen : OpensNone (fileText parts)) :
    strip (Utf8.text (fileBytes parts)).toList = fileText parts := by
  have hread := h.read
  rw [← plain_map_read] at hopen ⊢
  have hopen' : OpensNone (plain ((parts.map FilePart.read).filter (!·.isBlock))) := by
    rwa [plain_filter_not_isBlock]
  have hlines : removeLines (write ((parts.map FilePart.read).filter (!·.isBlock))) =
      plain ((parts.map FilePart.read).filter (!·.isBlock)) := by
    refine removeLines_write ?_ ?_ hread.lines.filter_not_isBlock hopen'
    · intro part hpart
      simpa using (List.mem_filter.mp hpart).2
    · intro part hpart
      exact hread.sound part (List.mem_filter.mp hpart).1
  rw [toList_text_fileBytes h.lines, strip, stripBlocks_write hread hopen, hlines,
    plain_filter_not_isBlock]

end Comment

namespace Outline

open Comment

/-- Of a source nothing matters but what is left of it without comments. -/
theorem value_load_of_strip (options : Options) {source other : String}
    (h : strip source.toList = strip other.toList) :
    (load options source).value = (load options other).value := by
  rw [value_load, value_load, value_readModules, value_readModules, h]

theorem value_loadFile_of_found {options : Options} {disk : Disk} {path : String}
    {bytes : List UInt8} (haccepts : options.accepts path = true)
    (hfound : disk path = .found bytes) :
    (loadFile options disk path).value = .ok (load options (Utf8.text bytes)).value := by
  simp [loadFile, haccepts, hfound]

/-- A file with comments of any bytes has the outline of its text without them. -/
theorem loadFile_fileBytes {options : Options} {disk : Disk} {path : String}
    {parts : List FilePart} (haccepts : options.accepts path = true)
    (hfound : disk path = .found (fileBytes parts)) (hplaced : FilePlaced parts)
    (hopen : OpensNone (fileText parts)) :
    (loadFile options disk path).value =
      .ok (load options (String.ofList (fileText parts))).value := by
  rw [value_loadFile_of_found haccepts hfound]
  congr 1
  apply value_load_of_strip
  rw [strip_fileBytes hplaced hopen, String.toList_ofList, hopen.strip_eq_self]

/-- Comments that end within a character each, one of them within the word `module`. -/
def brokenOff : List FilePart :=
  [.line [0x20, 0x5A, 0xE4], .char '\n'] ++ "mod".toList.map .char ++ [.block [0xE2, 0x82]] ++
    "ule m;".toList.map .char ++ [.block [0xED], .line [0xF0, 0x9F, 0x98], .char '\n'] ++
    "endmodule".toList.map .char ++ [.line [0xC3]]

/-- The file on every path of this disk consists of the parts above. -/
def brokenOffDisk : Disk := fun _ =>
  .found (encode "// Z".toList ++ [0xE4] ++ encode "\nmod/*".toList ++ [0xE2, 0x82] ++
    encode "*/ule m;/*".toList ++ [0xED] ++ encode "*///".toList ++ [0xF0, 0x9F, 0x98] ++
    encode "\nendmodule//".toList ++ [0xC3])

theorem loadFile_brokenOff :
    Options.accepts {} "m.v" = true ∧ brokenOffDisk "m.v" = .found (fileBytes brokenOff) ∧
      FilePlaced brokenOff ∧ OpensNone (fileText brokenOff) ∧
      (loadFile {} brokenOffDisk "m.v").value =
        .ok { modules := [{ name := "m", body := "\n" }] } := by
  have haccepts : Options.accepts {} "m.v" = true := by decide +kernel
  have hfound : brokenOffDisk "m.v" = .found (fileBytes brokenOff) := by decide +kernel
  have hplaced : FilePlaced brokenOff := by decide +kernel
  have hopen : OpensNone (fileText brokenOff) :=
    { noLine := by decide +kernel, noBlock := by decide +kernel }
  refine ⟨haccepts, hfound, hplaced, hopen, ?_⟩
  rw [loadFile_fileBytes haccepts hfound hplaced hopen]
  decide +kernel

end Outline

end VerilogOutline
