import Algorep.Program.Json

namespace Algorep.Program.Json

/-! A `std::string` that holds UTF-8 stands for the characters in it. -/

theorem wellFormed_two (hl : 0xC2 ≤ b ∧ b ≤ 0xDF) (hc : 0x80 ≤ c ∧ c ≤ 0xBF) :
    wellFormed [] [b,c] = true := by
  have hcont : continuation b = some [(0x80,0xBF)] := by
    unfold continuation
    rw [if_neg (by omega), if_pos hl]
  simpa [wellFormed, hcont] using hc

theorem wellFormed_three (hl : 0xE0 ≤ b ∧ b ≤ 0xEF) (hc : 0x80 ≤ c ∧ c ≤ 0xBF)
    (hd : 0x80 ≤ d ∧ d ≤ 0xBF) (hlow : b = 0xE0 → 0xA0 ≤ c) (hhigh : b = 0xED → c ≤ 0x9F) :
    wellFormed [] [b,c,d] = true := by
  have hcont : continuation b = some [(if b = 0xE0 then 0xA0 else 0x80,
      if b = 0xED then 0x9F else 0xBF),(0x80,0xBF)] := by
    unfold continuation
    split_ifs <;> first | rfl | omega
  simp only [wellFormed, hcont, Bool.and_eq_true, decide_eq_true_eq, and_true]
  split_ifs <;> omega

theorem wellFormed_four (hl : 0xF0 ≤ b ∧ b ≤ 0xF4) (hc : 0x80 ≤ c ∧ c ≤ 0xBF)
    (hd : 0x80 ≤ d ∧ d ≤ 0xBF) (he : 0x80 ≤ e ∧ e ≤ 0xBF) (hlow : b = 0xF0 → 0x90 ≤ c)
    (hhigh : b = 0xF4 → c ≤ 0x8F) : wellFormed [] [b,c,d,e] = true := by
  have hcont : continuation b = some [(if b = 0xF0 then 0x90 else 0x80,
      if b = 0xF4 then 0x8F else 0xBF),(0x80,0xBF),(0x80,0xBF)] := by
    unfold continuation
    split_ifs <;> first | rfl | omega
  simp only [wellFormed, hcont, Bool.and_eq_true, decide_eq_true_eq, and_true]
  split_ifs <;> omega

theorem char_range (c : Char) :
    c.toNat < 0xD800 ∨ (0xDFFF < c.toNat ∧ c.toNat < 0x110000) := c.valid

theorem encode_wellFormed (c : Char) : wellFormed [] (encode c.toNat) = true := by
  have hvalid := char_range c
  generalize c.toNat = v at hvalid
  unfold encode
  split_ifs with h1 h2 h3
  · exact wellFormed_ascii (by simpa using Nat.le_of_lt_succ h1)
  · exact wellFormed_two (by omega) (by omega)
  · exact wellFormed_three (by omega) (by omega) (by omega) (by omega) (by omega)
  · exact wellFormed_four (by omega) (by omega) (by omega) (by omega) (by omega) (by omega)

/-- The bytes of a string. -/
def textOf (s : String) : Bytes := s.toList.flatMap (fun c => encode c.toNat)

theorem flatMap_wellFormed {f : α → Bytes} {xs : List α}
    (h : ∀ x ∈ xs, wellFormed [] (f x) = true) :
    wellFormed [] (xs.flatMap f) = true := by
  induction xs with
  | nil => rfl
  | cons x xs ih =>
    rw [List.flatMap_cons]
    exact wellFormed_append (h x List.mem_cons_self)
      (ih (fun y hy => h y (List.mem_cons_of_mem _ hy)))

theorem textOf_wellFormed (s : String) : wellFormed [] (textOf s) = true :=
  flatMap_wellFormed (fun c _ => encode_wellFormed c)

def utf8Of (s : String) : Utf8 := ⟨textOf s,textOf_wellFormed s⟩

/-- The characters of a text. -/
def decode : Bytes → List Char
  | [] => []
  | b::bs =>
    if b < 0x80 then Char.ofNat b::decode bs
    else if b < 0xE0 then
      match bs with
      | c::rest => Char.ofNat ((b - 0xC0) * 0x40 + (c - 0x80))::decode rest
      | _ => []
    else if b < 0xF0 then
      match bs with
      | c::d::rest =>
        Char.ofNat ((b - 0xE0) * 0x1000 + (c - 0x80) * 0x40 + (d - 0x80))::decode rest
      | _ => []
    else
      match bs with
      | c::d::e::rest => Char.ofNat ((b - 0xF0) * 0x40000 + (c - 0x80) * 0x1000 +
          (d - 0x80) * 0x40 + (e - 0x80))::decode rest
      | _ => []

/-- The string that a text stands for. -/
def stringOf (text : Bytes) : String := String.ofList (decode text)

theorem decode_encode (c : Char) (rest : Bytes) :
    decode (encode c.toNat ++ rest) = c::decode rest := by
  have hvalid := char_range c
  have hback := Char.ofNat_toNat c
  generalize c.toNat = v at hvalid hback
  unfold encode
  split_ifs with h1 h2 h3
  · rw [List.singleton_append]
    conv_lhs => unfold decode
    rw [if_pos h1, hback]
  · have hv : (0xC0 + v / 0x40 - 0xC0) * 0x40 + (0x80 + v % 0x40 - 0x80) = v := by omega
    conv_lhs => unfold decode
    dsimp only [List.cons_append, List.nil_append]
    rw [if_neg (by omega), if_pos (by omega), hv, hback]
  · have hv : (0xE0 + v / 0x1000 - 0xE0) * 0x1000 + (0x80 + v / 0x40 % 0x40 - 0x80) * 0x40 +
        (0x80 + v % 0x40 - 0x80) = v := by omega
    conv_lhs => unfold decode
    dsimp only [List.cons_append, List.nil_append]
    rw [if_neg (by omega), if_neg (by omega), if_pos (by omega), hv, hback]
  · have hv : (0xF0 + v / 0x40000 - 0xF0) * 0x40000 +
        (0x80 + v / 0x1000 % 0x40 - 0x80) * 0x1000 + (0x80 + v / 0x40 % 0x40 - 0x80) * 0x40 +
        (0x80 + v % 0x40 - 0x80) = v := by omega
    conv_lhs => unfold decode
    dsimp only [List.cons_append, List.nil_append]
    rw [if_neg (by omega), if_neg (by omega), if_neg (by omega), hv, hback]

theorem stringOf_textOf (s : String) : stringOf (textOf s) = s := by
  have hdecode : ∀ cs : List Char, decode (cs.flatMap (fun c => encode c.toNat)) = cs := by
    intro cs
    induction cs with
    | nil => rfl
    | cons c cs ih => rw [List.flatMap_cons, decode_encode, ih]
  rw [stringOf, textOf, hdecode, String.ofList_toList]

/-! The log file has each entry on a line of its own. -/

/-- What `append` makes of an empty file. -/
def contentsOf (log : List String) : Bytes := log.flatMap (fun entry => textOf entry ++ [0x0A])

theorem contentsOf_wellFormed (log : List String) : wellFormed [] (contentsOf log) = true := by
  apply flatMap_wellFormed
  intro entry _
  exact wellFormed_append (textOf_wellFormed entry) (wellFormed_ascii (by simp))

def contentsUtf8 (log : List String) : Utf8 := ⟨contentsOf log,contentsOf_wellFormed log⟩

/-- The entries in a file. A last line without its end is one too. -/
def entriesIn (contents : Bytes) : List String :=
  let lines := contents.splitOn 0x0A
  (if lines.getLast? = some [] then lines.dropLast else lines).map stringOf

theorem newline_encode (h : 0x0A ∈ encode c) : c = 0x0A := by
  unfold encode at h
  split_ifs at h <;> simp at h <;> omega

theorem newline_textOf {s : String} (h : '\n' ∉ s.toList) : 0x0A ∉ textOf s := by
  intro hmem
  obtain ⟨c,hc,hb⟩ := List.mem_flatMap.mp hmem
  have heq := congrArg Char.ofNat (newline_encode hb)
  rw [Char.ofNat_toNat] at heq
  exact h (heq ▸ hc)

theorem splitOn_contentsOf {log : List String} (h : ∀ v ∈ log, '\n' ∉ v.toList) :
    (contentsOf log).splitOn 0x0A = log.map textOf ++ [[]] := by
  induction log with
  | nil => rfl
  | cons v log ih =>
    have hv := newline_textOf (h v List.mem_cons_self)
    rw [contentsOf, List.flatMap_cons, List.append_assoc, List.singleton_append,
      List.splitOn_append_cons_self_of_not_mem hv, List.map_cons, List.cons_append]
    exact congrArg _ (ih (fun w hw => h w (List.mem_cons_of_mem _ hw)))

/-- A log whose entries have no line ends is read back from its file. -/
theorem entriesIn_contentsOf {log : List String} (h : ∀ v ∈ log, '\n' ∉ v.toList) :
    entriesIn (contentsOf log) = log := by
  unfold entriesIn
  rw [splitOn_contentsOf h]
  simp [Function.comp_def, stringOf_textOf]

end Algorep.Program.Json
