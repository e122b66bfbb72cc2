/-
  Names and paths of hit files.

  The path of a hit file leads into the hits directory and then to its name.
  While the file is written, its name has another extension
  (`withExtension_append`), so that no reader takes it for a hit file.
-/
import CilCoverage.HitsStore
import Mathlib.Data.List.Basic

namespace CilCoverage

/-! ## Parts of paths -/

namespace Path

theorem parts_of_notMem {text : List Char} (h : '/' ∉ text) : parts text = [text] := by
  induction text with
  | nil => rfl
  | cons c rest ih =>
    have hmark : ¬ (c == '/') = true := by
      rw [beq_iff_eq]
      exact fun hc => h (hc ▸ List.mem_cons_self)
    have ih := ih fun hmem => h (List.mem_cons_of_mem _ hmem)
    rw [parts] at ih ⊢
    rw [Text.pieces, if_neg hmark, ih]

theorem step?_of_length {part : List Char} (h : 2 < part.length) :
    step? part = some (.into (String.ofList part)) := by
  have hne : ∀ other : List Char, other.length ≤ 2 → part ≠ other := by
    intro other hother heq
    rw [heq] at h
    omega
  rw [step?, if_neg fun h => h.elim (hne [] (by decide)) (hne ['.'] (by decide)),
    if_neg (hne ['.', '.'] (by decide))]

theorem step?_append {stem ext : List Char} (hstem : stem ≠ []) (hext : ext ≠ []) :
    step? (stem ++ '.' :: ext) = some (.into (String.ofList (stem ++ '.' :: ext))) := by
  have := List.length_pos_iff.mpr hstem
  have := List.length_pos_iff.mpr hext
  refine step?_of_length ?_
  rw [List.length_append, List.length_cons]
  omega

theorem steps_of_notMem {name : String} {step : PathStep} (hslash : '/' ∉ name.toList)
    (hstep : step? name.toList = some step) : steps name = [step] := by
  rw [steps, parts_of_notMem hslash, List.filterMap_cons_some hstep]
  rfl

theorem join_empty (name : String) : join "" name = name := by
  unfold join
  split
  · rfl
  · exact String.empty_append

/-- A path and a name are joined by one slash, if the path has none at its end. -/
theorem join_eq {path name : String} (hpath : path ≠ "") (hname : '/' ∉ name.toList) :
    ∃ front, join path name = front ++ "/" ++ name ∧ (path = front ∨ path = front ++ "/") := by
  have hrelative : ¬ name.toList.head? = some '/' := fun h => hname (List.mem_of_head? h)
  have hempty : path.isEmpty = false := by
    rw [Bool.eq_false_iff]
    exact fun h => hpath (String.isEmpty_iff.mp h)
  rw [join, if_neg hrelative, hempty, Bool.false_or]
  by_cases hlast : path.toList.getLast? = some '/'
  · obtain ⟨front, hfront⟩ := List.getLast?_eq_some_iff.mp hlast
    have hpath : path = String.ofList front ++ "/" := by
      rw [← String.toList_inj, hfront, String.toList_append, String.toList_ofList]
      rfl
    refine ⟨String.ofList front, ?_, .inr hpath⟩
    rw [if_pos (beq_iff_eq.mpr hlast), hpath]
  · exact ⟨path, if_neg fun h => hlast (beq_iff_eq.mp h), .inl rfl⟩

theorem steps_of_front {path front : String} (h : path = front ∨ path = front ++ "/") :
    steps path = steps front := by
  rcases h with rfl | rfl
  · rfl
  · have hnone : steps "" = [] := rfl
    have := steps_append front ""
    rwa [hnone, List.append_nil, String.append_empty] at this

theorem isValid_of_front {path front name : String} (hpath : path ≠ "")
    (h : path = front ∨ path = front ++ "/") (hvalid : isValid (front ++ "/" ++ name) = true) :
    isValid path = true := by
  have hempty : path.isEmpty = false := by
    rw [Bool.eq_false_iff]
    exact fun h => hpath (String.isEmpty_iff.mp h)
  obtain ⟨rest, hrest⟩ : ∃ rest, front ++ "/" ++ name = path ++ rest := by
    rcases h with rfl | rfl
    · exact ⟨"/" ++ name, String.append_assoc⟩
    · exact ⟨name, rfl⟩
  rw [hrest] at hvalid
  simp only [isValid, hempty, Bool.not_false, Bool.true_and, Bool.and_eq_true, decide_eq_true_eq,
    Bool.not_eq_true', List.contains_eq_mem, decide_eq_false_iff_not, String.utf8ByteSize_append,
    String.toList_append, List.mem_append, not_or] at hvalid ⊢
  exact ⟨by omega, hvalid.2.1⟩

/-! ## Extensions -/

theorem divide_append {stem ext : List Char} (hstem : stem ≠ []) (hext : '.' ∉ ext)
    (hne : ext ≠ []) : divide (stem ++ '.' :: ext) = (stem, some ext) := by
  have hreversed : (stem ++ '.' :: ext).reverse = ext.reverse ++ '.' :: stem.reverse := by simp
  have hnodot : ∀ c ∈ ext.reverse, (c != '.') = true := by
    intro c hc
    rw [bne_iff_ne]
    exact fun h => hext (h ▸ List.mem_reverse.mp hc)
  have hdrop : (ext.reverse ++ '.' :: stem.reverse).dropWhile (· != '.') =
      '.' :: stem.reverse := by
    rw [List.dropWhile_append_of_pos hnodot]
    rfl
  have htake : (ext.reverse ++ '.' :: stem.reverse).takeWhile (· != '.') = ext.reverse := by
    rw [List.takeWhile_append_of_pos hnodot]
    simp
  obtain ⟨c, rest, hcons⟩ := List.exists_cons_of_ne_nil (List.reverse_ne_nil_iff.mpr hstem)
  have hname : stem ++ '.' :: ext ≠ ['.', '.'] := by
    intro h
    have hlast : ext.getLast hne = '.' := by
      have := congrArg List.getLast? h
      rw [List.getLast?_append_of_ne_nil _ (List.cons_ne_nil _ _),
        List.getLast?_cons_of_ne_nil hne, List.getLast?_eq_some_getLast hne] at this
      exact Option.some.inj this
    exact hext (hlast ▸ List.getLast_mem hne)
  rw [divide, hreversed, hdrop, htake, hcons]
  show (if stem ++ '.' :: ext = ['.', '.'] then (stem ++ '.' :: ext, none)
    else ((c :: rest).reverse, some ext.reverse.reverse)) = _
  rw [if_neg hname, ← hcons, List.reverse_reverse, List.reverse_reverse]

theorem split_append {slashed name : List Char}
    (hslashed : slashed = [] ∨ ∃ front, slashed = front ++ ['/']) (h : '/' ∉ name) :
    split (slashed ++ name) = (slashed, name) := by
  have hnoslash : ∀ c ∈ name.reverse, (c != '/') = true := by
    intro c hc
    rw [bne_iff_ne]
    exact fun hslash => h (hslash ▸ List.mem_reverse.mp hc)
  have hnone : slashed.reverse.takeWhile (· != '/') = [] := by
    rcases hslashed with rfl | ⟨front, rfl⟩
    · rfl
    · rw [List.reverse_append]
      rfl
  have hlength : (slashed ++ name).length - name.length = slashed.length := by
    rw [List.length_append, Nat.add_sub_cancel]
  rw [split, List.reverse_append, List.takeWhile_append_of_pos hnoslash, hnone, List.append_nil,
    List.reverse_reverse, hlength, List.take_left]

theorem dropIdle_eq_self {c : Char} {rest : List Char} (hslash : c ≠ '/') (hdot : c ≠ '.') :
    dropIdle (c :: rest) = c :: rest := by
  unfold dropIdle
  split
  · next h => exact absurd (List.cons.inj h).1 hslash
  · next h => exact absurd (List.cons.inj h).1 hdot
  · rfl

/-- Another extension takes the place of the one that a name at the end of a path has. -/
theorem withExtension_append {slashed stem ext : List Char} (newExt : String)
    (hslashed : slashed = [] ∨ ∃ front, slashed = front ++ ['/'])
    (hstem : stem ≠ []) (hdot : stem ≠ ['.']) (hslash : '/' ∉ stem) (hext : '.' ∉ ext)
    (hextSlash : '/' ∉ ext) (hne : ext ≠ []) :
    withExtension (String.ofList (slashed ++ (stem ++ '.' :: ext))) newExt =
      String.ofList (slashed ++ stem) ++ "." ++ newExt := by
  -- the last character belongs to the extension, so nothing is dropped at the end
  obtain ⟨c, rest, hcons⟩ := List.exists_cons_of_ne_nil (List.reverse_ne_nil_iff.mpr hne)
  have hc : c ∈ ext := List.mem_reverse.mp (hcons ▸ List.mem_cons_self)
  have hkept : (dropIdle (slashed ++ (stem ++ '.' :: ext)).reverse).reverse =
      slashed ++ (stem ++ '.' :: ext) := by
    have hreversed : (slashed ++ (stem ++ '.' :: ext)).reverse =
        c :: (rest ++ '.' :: (stem.reverse ++ slashed.reverse)) := by
      simp [hcons]
    rw [hreversed, dropIdle_eq_self (fun h => hextSlash (h ▸ hc)) fun h => hext (h ▸ hc),
      ← hreversed, List.reverse_reverse]
  have hname : '/' ∉ stem ++ '.' :: ext := by
    simp only [List.mem_append, List.mem_cons, not_or]
    exact ⟨hslash, by decide, hextSlash⟩
  rw [withExtension, String.toList_ofList, hkept, split_append hslashed hname]
  dsimp only
  rw [step?_append hstem hne, divide_append hstem hext hne]
  dsimp only
  rw [if_neg fun h => hdot h.1]

end Path

namespace Numeral

theorem notMem_digits {c : Char} (hc : ∀ n, Nat.digitChar n ≠ c) (base n : Nat) :
    c ∉ digits base n := by
  fun_induction digits base n with
  | case1 n h => exact fun hmem => hc n (List.mem_singleton.mp hmem).symm
  | case2 n h ih =>
    rw [List.mem_append, List.mem_singleton, not_or]
    exact ⟨ih, (hc _).symm⟩

theorem digitChar_ne_slash (n : Nat) : Nat.digitChar n ≠ '/' := by
  grind [Nat.digitChar]

theorem digitChar_ne_dot (n : Nat) : Nat.digitChar n ≠ '.' := by
  grind [Nat.digitChar]

theorem slash_notMem_decimal (n : Nat) : '/' ∉ (decimal n).toList := by
  rw [decimal, String.toList_ofList]
  exact notMem_digits digitChar_ne_slash 10 n

theorem notMem_hexPadded {c : Char} (hc : ∀ n, Nat.digitChar n ≠ c) (width n : Nat) :
    c ∉ (hexPadded width n).toList := by
  rw [hexPadded, String.toList_ofList, List.mem_append, not_or]
  exact ⟨fun h => hc 0 (List.eq_of_mem_replicate h).symm, notMem_digits hc 16 n⟩

/-- Number denoted by hexadecimal digits. -/
def hexValue (ds : List Char) : Nat :=
  ds.foldl (fun n c => 16 * n + (hexDigitValue? c).getD 0) 0

theorem hexValue_digits (n : Nat) : hexValue (digits 16 n) = n := by
  induction n using Nat.strongRecOn with
  | ind n ih =>
    unfold digits
    split
    · next h =>
      have hn : n < 16 := by omega
      simp [hexValue, hexDigitValue?_digitChar hn]
    · next h =>
      have hd : n / 16 < n := Nat.div_lt_self (by omega) (by omega)
      have hlast := hexDigitValue?_digitChar (Nat.mod_lt n (by omega : 16 > 0))
      have ih := ih _ hd
      unfold hexValue at ih ⊢
      rw [List.foldl_append, ih, List.foldl_cons, List.foldl_nil, hlast, Option.getD_some]
      omega

theorem hexValue_padded (zeros : Nat) (ds : List Char) :
    hexValue (List.replicate zeros '0' ++ ds) = hexValue ds := by
  induction zeros with
  | zero => rfl
  | succ zeros ih => exact ih

theorem hexPadded_inj {width a b : Nat} (h : hexPadded width a = hexPadded width b) : a = b := by
  have hvalues := congrArg (fun s => hexValue s.toList) h
  simp only [hexPadded, String.toList_ofList, hexValue_padded, hexValue_digits] at hvalues
  exact hvalues

end Numeral

namespace HitsDir

/-! ## Names of hit files -/

/-- The text can stand before the extension of a file. -/
structure IsStem (stem : List Char) : Prop where
  ne_nil : stem ≠ []
  ne_dot : stem ≠ ['.']
  no_slash : '/' ∉ stem

/-- The name of a file in a folder, with the extension of hit files. -/
def IsHitName (name : String) : Prop :=
  ∃ stem, IsStem stem ∧ name.toList = stem ++ '.' :: hitExtension.toList

/-- The name that a hit file has while it is written. -/
def scratchName (name : String) : String :=
  String.ofList ((Path.divide name.toList).1 ++ '.' :: scratchExtension.toList)

theorem slash_notMem_sanitize (runId : String) : '/' ∉ (sanitize runId).toList := by
  unfold sanitize
  split
  · decide
  · rw [String.toList_map, List.mem_map]
    rintro ⟨c, -, hc⟩
    split at hc
    · next h => subst hc; revert h; decide
    · revert hc; decide

theorem isHitName_newFileName (runId : String) (process unique : Nat) :
    IsHitName (newFileName runId process unique) := by
  refine ⟨(sanitize runId ++ "." ++ Numeral.decimal process ++ "." ++
    Numeral.hexPadded 32 unique).toList, ⟨?_, ?_, ?_⟩, ?_⟩
  · simp
  · intro h
    have hlength := congrArg List.length h
    simp only [String.toList_append, List.length_append, List.length_singleton] at hlength
    have hdot : ".".toList.length = 1 := rfl
    omega
  · simp only [String.toList_append, List.mem_append, not_or]
    exact ⟨⟨⟨⟨slash_notMem_sanitize runId, by decide⟩, Numeral.slash_notMem_decimal process⟩,
      by decide⟩, Numeral.notMem_hexPadded Numeral.digitChar_ne_slash 32 unique⟩
  · rw [newFileName, String.toList_append, String.toList_append, List.append_assoc]
    rfl

/-- Files with other unique numbers have other names. -/
theorem newFileName_inj {runId runId' : String} {process process' unique unique' : Nat}
    (h : newFileName runId process unique = newFileName runId' process' unique') :
    unique = unique' := by
  have hdivide : ∀ runId process unique,
      Path.divide (sanitize runId ++ "." ++ Numeral.decimal process ++ "." ++
        Numeral.hexPadded 32 unique).toList =
      ((sanitize runId ++ "." ++ Numeral.decimal process).toList,
        some (Numeral.hexPadded 32 unique).toList) := by
    intro runId process unique
    have hne : (Numeral.hexPadded 32 unique).toList ≠ [] := by
      intro hnil
      have hlength := congrArg List.length hnil
      rw [Numeral.hexPadded, String.toList_ofList, List.length_append, List.length_replicate,
        List.length_nil] at hlength
      omega
    rw [String.toList_append, String.toList_append, List.append_assoc]
    exact Path.divide_append (by simp)
      (Numeral.notMem_hexPadded Numeral.digitChar_ne_dot 32 unique) hne
  have hextension : ∀ stem : String,
      (stem ++ "." ++ hitExtension).toList = stem.toList ++ ".hits".toList := by
    intro stem
    rw [String.toList_append, String.toList_append, List.append_assoc]
    rfl
  have hlists := congrArg String.toList h
  rw [newFileName, newFileName, hextension, hextension] at hlists
  have hparts := congrArg Path.divide (List.append_cancel_right hlists)
  rw [hdivide, hdivide] at hparts
  have hnumerals := Option.some.inj (Prod.mk.inj hparts).2
  exact Numeral.hexPadded_inj (String.toList_inj.mp hnumerals)

variable {name other : String}

theorem IsHitName.extension? (h : IsHitName name) : Path.extension? name = some hitExtension := by
  obtain ⟨stem, hstem, heq⟩ := h
  have hdivide : Path.divide name.toList = (stem, some hitExtension.toList) := by
    rw [heq, Path.divide_append hstem.ne_nil (by decide) (by decide)]
  rw [Path.extension?, hdivide, Option.map_some, String.ofList_toList]

theorem toList_scratchName {stem : List Char} (hstem : IsStem stem)
    (heq : name.toList = stem ++ '.' :: hitExtension.toList) :
    (scratchName name).toList = stem ++ '.' :: scratchExtension.toList := by
  have hdivide : Path.divide name.toList = (stem, some hitExtension.toList) := by
    rw [heq, Path.divide_append hstem.ne_nil (by decide) (by decide)]
  rw [scratchName, hdivide, String.toList_ofList]

/-- A file that is being written is no hit file. -/
theorem IsHitName.extension?_scratchName (h : IsHitName name) :
    Path.extension? (scratchName name) = some scratchExtension := by
  obtain ⟨stem, hstem, heq⟩ := h
  rw [Path.extension?, toList_scratchName hstem heq,
    Path.divide_append hstem.ne_nil (by decide) (by decide), Option.map_some, String.ofList_toList]

theorem IsHitName.ne_scratchName (h : IsHitName other)
    (hname : Path.extension? name = some hitExtension) : name ≠ scratchName other := by
  intro heq
  rw [heq, h.extension?_scratchName] at hname
  exact absurd hname (by decide)

theorem IsHitName.scratchName_inj (h : IsHitName name) (hother : IsHitName other)
    (heq : scratchName name = scratchName other) : name = other := by
  obtain ⟨stem, hstem, hname⟩ := h
  obtain ⟨stem', hstem', hname'⟩ := hother
  have hlists := congrArg String.toList heq
  rw [toList_scratchName hstem hname, toList_scratchName hstem' hname'] at hlists
  obtain rfl : stem = stem' := List.append_cancel_right hlists
  exact String.toList_inj.mp (hname.trans hname'.symm)

/-! ## Paths of hit files -/

variable {d : HitsDir}

theorem IsHitName.slash_notMem (h : IsHitName name) : '/' ∉ name.toList := by
  obtain ⟨stem, hstem, heq⟩ := h
  rw [heq, List.mem_append, List.mem_cons, not_or, not_or]
  exact ⟨hstem.no_slash, by decide, by decide⟩

theorem IsHitName.filePath_eq (h : IsHitName name) (hpath : d.path ≠ "") :
    ∃ front, d.filePath name = front ++ "/" ++ name ∧
      (d.path = front ∨ d.path = front ++ "/") :=
  Path.join_eq hpath h.slash_notMem

theorem IsHitName.steps_eq (h : IsHitName name) : Path.steps name = [.into name] := by
  have hslash := h.slash_notMem
  obtain ⟨stem, hstem, heq⟩ := h
  refine Path.steps_of_notMem hslash ?_
  rw [heq, Path.step?_append hstem.ne_nil (by decide), ← heq, String.ofList_toList]

theorem IsHitName.steps_scratchName (h : IsHitName name) :
    Path.steps (scratchName name) = [.into (scratchName name)] := by
  obtain ⟨stem, hstem, heq⟩ := h
  have hscratch := toList_scratchName hstem heq
  refine Path.steps_of_notMem ?_ ?_
  · rw [hscratch, List.mem_append, List.mem_cons, not_or, not_or]
    exact ⟨hstem.no_slash, by decide, by decide⟩
  · rw [hscratch, Path.step?_append hstem.ne_nil (by decide), ← hscratch, String.ofList_toList]

/-- While a hit file is written, its path has the other name at its end. -/
theorem IsHitName.withExtension_eq (h : IsHitName name) {slashed : String}
    (hslashed : slashed = "" ∨ ∃ front, slashed = front ++ "/") :
    Path.withExtension (slashed ++ name) scratchExtension = slashed ++ scratchName name := by
  obtain ⟨stem, hstem, heq⟩ := h
  have hscratch := toList_scratchName hstem heq
  have hlist : slashed.toList = [] ∨ ∃ front, slashed.toList = front ++ ['/'] := by
    rcases hslashed with rfl | ⟨front, rfl⟩
    · exact .inl rfl
    · exact .inr ⟨front.toList, String.toList_append⟩
  have htext : slashed ++ name =
      String.ofList (slashed.toList ++ (stem ++ '.' :: hitExtension.toList)) := by
    rw [← String.toList_inj, String.toList_append, String.toList_ofList, heq]
  rw [htext, Path.withExtension_append _ hlist hstem.ne_nil hstem.ne_dot hstem.no_slash (by decide)
    (by decide) (by decide), ← String.toList_inj]
  simp only [String.toList_append, String.toList_ofList, hscratch, List.append_assoc]
  rfl

/-- The path of a hit file leads into the directory and then to the name of the file. -/
theorem IsHitName.steps_filePath (h : IsHitName name) :
    Path.steps (d.filePath name) = Path.steps d.path ++ [.into name] := by
  by_cases hpath : d.path = ""
  · rw [filePath, hpath, Path.join_empty, h.steps_eq]
    rfl
  · obtain ⟨front, heq, hfront⟩ := h.filePath_eq hpath
    rw [heq, Path.steps_append, Path.steps_of_front hfront, h.steps_eq]

/-- While a hit file is written, its path leads into the same directory. -/
theorem IsHitName.steps_scratch (h : IsHitName name) :
    Path.steps (Path.withExtension (d.filePath name) scratchExtension) =
      Path.steps d.path ++ [.into (scratchName name)] := by
  by_cases hpath : d.path = ""
  · have hbare := h.withExtension_eq (.inl rfl)
    rw [String.empty_append, String.empty_append] at hbare
    rw [filePath, hpath, Path.join_empty, hbare, h.steps_scratchName]
    rfl
  · obtain ⟨front, heq, hfront⟩ := h.filePath_eq hpath
    rw [heq, h.withExtension_eq (.inr ⟨front, rfl⟩), Path.steps_append,
      Path.steps_of_front hfront, h.steps_scratchName]

theorem IsHitName.isValid_of_filePath (h : IsHitName name) (hpath : d.path ≠ "")
    (hvalid : Path.isValid (d.filePath name) = true) : Path.isValid d.path = true := by
  obtain ⟨front, heq, hfront⟩ := h.filePath_eq hpath
  exact Path.isValid_of_front hpath hfront (heq ▸ hvalid)

end HitsDir

end CilCoverage
