/-
# What `Connect` accepts and `Close_Socket` releases

`get_ip_strToChar` cuts the text of an address at its dots and gives each field to
`std::stoi`, which skips blanks, takes a sign, ignores what follows the digits and
throws when there are none; the value is cut to a byte. Every dotted quad is read
right, but it is not the only text that is accepted, and some texts end the kernel
(`connect_parses`).

`deleteSocket` looks for one port of the socket and takes -1 for "none": a socket
with two ports, or with the port -1, keeps one of them (`close_releases`).

Key definitions: `ipFields`, `DottedQuad`, `checkedGetIpStrToChar`, `SocketRun.OneBind`.
-/
import Mathlib.Data.List.TakeWhile
import NachosNet.Basis.Checked
import NachosNet.Threads.Sockets

namespace Nachos

open Basis

/-! ### The fields of an address -/

/-- The loop of `get_ip_strToChar` by the fields between the dots. -/
def ipFields (ip : List Byte) : List Text → Option (Option (List Byte))
  | [] => some none
  | f :: fs =>
    if 4 ≤ ip.length then some none
    else (stoi f).bind fun v =>
      if fs = [] then some (if ip.length + 1 = 4 then some (ip ++ [BitVec.ofInt 8 v]) else none)
      else ipFields (ip ++ [BitVec.ofInt 8 v]) fs

theorem ipLoop_eq (str : Text) : ∀ (ip : List Byte) (intermediate : Text), '.' ∉ intermediate →
    ipLoop ip intermediate str = ipFields ip ((intermediate ++ str).splitOn '.') := by
  induction str with
  | nil =>
    intro ip intermediate h
    rw [List.append_nil, List.splitOn_eq_singleton h, ipLoop, ipFields]
    split
    · rfl
    · cases stoi intermediate with
      | none => rfl
      | some v => rfl
  | cons c str ih =>
    intro ip intermediate h
    rw [ipLoop]
    by_cases hc : c = '.'
    · subst hc
      rw [if_pos rfl, List.splitOn_append_cons_self_of_not_mem h, ipFields]
      simp only [if_neg (List.splitOn_ne_nil '.' str)]
      split
      · rfl
      · congr 1
        funext v
        exact ih _ [] (by simp)
    · have hmem : '.' ∉ intermediate ++ [c] := by
        rw [List.mem_append, List.mem_singleton, not_or]
        exact ⟨h, Ne.symm hc⟩
      rw [if_neg hc, ih ip _ hmem, List.append_assoc, List.singleton_append]

theorem getIpStrToChar_eq (str : Text) : getIpStrToChar str = ipFields [] (str.splitOn '.') :=
  ipLoop_eq str [] [] (by simp)

/-- An exception leaves the loop exactly when `stoi` throws on a field that is
stored. -/
theorem ipFields_eq_none_iff {fs : List Text} : ∀ {ip : List Byte}, ip.length ≤ 4 →
    (ipFields ip fs = none ↔ ∃ f ∈ fs.take (4 - ip.length), stoi f = none) := by
  induction fs with
  | nil => simp [ipFields]
  | cons f fs ih =>
    intro ip hlen
    rw [ipFields]
    by_cases h4 : 4 ≤ ip.length
    · rw [if_pos h4, show 4 - ip.length = 0 by omega]
      simp
    · obtain ⟨n, hn⟩ : ∃ n, 4 - ip.length = n + 1 := ⟨3 - ip.length, by omega⟩
      rw [if_neg h4, hn, List.take_succ_cons]
      cases hf : stoi f with
      | none => simp [hf]
      | some v =>
        rw [Option.bind_some]
        by_cases hfs : fs = []
        · simp [hfs, hf]
        · have hlen' : (ip ++ [BitVec.ofInt 8 v]).length = ip.length + 1 := by simp
          rw [if_neg hfs, ih (by omega), hlen', show 4 - (ip.length + 1) = n by omega]
          simp [hf]

/-- The byte stored for a field. -/
def byteOf (f : Text) : Byte := BitVec.ofInt 8 ((stoi f).getD 0)

theorem ipFields_eq_some_iff {fs : List Text} (hne : fs ≠ []) : ∀ {ip bytes : List Byte},
    ipFields ip fs = some (some bytes) ↔
      ip.length + fs.length = 4 ∧ (∀ f ∈ fs, stoi f ≠ none) ∧ bytes = ip ++ fs.map byteOf := by
  induction fs with
  | nil => exact absurd rfl hne
  | cons f fs ih =>
    intro ip bytes
    rw [ipFields, List.length_cons, List.forall_mem_cons, List.map_cons]
    by_cases h4 : 4 ≤ ip.length
    · rw [if_pos h4]
      exact ⟨fun h => by simp at h, fun h => by omega⟩
    · rw [if_neg h4]
      cases hf : stoi f with
      | none => exact ⟨fun h => by simp at h, fun h => absurd rfl h.2.1.1⟩
      | some v =>
        have hv : byteOf f = BitVec.ofInt 8 v := by simp [byteOf, hf]
        rw [Option.bind_some, hv]
        by_cases hfs : fs = []
        · subst hfs
          rw [if_pos rfl]
          by_cases h3 : ip.length + 1 = 4
          · simp [h3, eq_comm]
          · simp [h3]
        · rw [if_neg hfs, ih hfs, List.length_append, List.length_singleton, List.append_assoc,
            List.singleton_append, Nat.add_assoc, Nat.add_comm 1]
          simp

/-! ### Dotted quads -/

/-- The value of a field of digits. -/
def fieldValue (f : Text) : ℕ := Nat.ofDigitChars 10 f 0

/-- `str` is four decimal numbers in 0..255 separated by single dots, with the bytes
`ip`. -/
def DottedQuad (str : Text) (ip : List Byte) : Prop :=
  ∃ fs : List Text, fs.length = 4 ∧ str = ['.'].intercalate fs ∧
    (∀ f ∈ fs, f ≠ [] ∧ (∀ c ∈ f, c.isDigit = true) ∧ fieldValue f ≤ 255) ∧
    ip = fs.map fun f => BitVec.ofNat 8 (fieldValue f)

theorem stoi_decimal {f : Text} (hne : f ≠ []) (hd : ∀ c ∈ f, c.isDigit = true) (hv : fieldValue f ≤ 255) :
    stoi f = some (fieldValue f : ℤ) := by
  obtain ⟨c, f, rfl⟩ := List.exists_cons_of_ne_nil hne
  have hc : c.isDigit = true := hd c List.mem_cons_self
  have hspace : isSpace c = false := by
    have h48 : 48 ≤ c.toNat := by
      simp only [Char.isDigit, Bool.and_eq_true, decide_eq_true_eq] at hc
      exact UInt32.le_iff_toNat_le.mp hc.1
    rw [Bool.eq_false_iff]
    intro hs
    rcases of_decide_eq_true hs with rfl | h
    · exact absurd h48 (by decide)
    · omega
  have hdrop : (c :: f).dropWhile isSpace = c :: f := by rw [List.dropWhile_cons, hspace]; rfl
  have hsign : ¬ ((c :: f).head? = some '-' ∨ (c :: f).head? = some '+') := by
    rw [List.head?_cons, Option.some.injEq, Option.some.injEq]
    rintro (rfl | rfl)
    · exact absurd hc (by decide)
    · exact absurd hc (by decide)
  have htake : (c :: f).takeWhile Char.isDigit = c :: f := List.takeWhile_eq_self_iff.mpr hd
  unfold stoi
  simp only [hdrop, if_neg hsign, htake]
  rw [if_neg fun h => hsign (Or.inl h), if_pos]
  · rfl
  · unfold fieldValue at hv
    exact ⟨List.cons_ne_nil _ _, by omega, by omega⟩

/-- The numbers of a dotted quad are its fields. -/
theorem DottedQuad.fields {str : Text} {ip : List Byte} (h : DottedQuad str ip) : (str.splitOn '.').length = 4 ∧
    (∀ f ∈ str.splitOn '.', f ≠ [] ∧ (∀ c ∈ f, c.isDigit = true) ∧ fieldValue f ≤ 255) ∧
    ip = (str.splitOn '.').map fun f => BitVec.ofNat 8 (fieldValue f) := by
  obtain ⟨fs, hlen, rfl, hfs, rfl⟩ := h
  have hdot : ∀ f ∈ fs, '.' ∉ f := fun f hf hm => absurd ((hfs f hf).2.1 '.' hm) (by decide)
  have hne : fs ≠ [] := by
    rintro rfl
    simp at hlen
  rw [List.splitOn_intercalate '.' hdot hne]
  exact ⟨hlen, hfs, rfl⟩

theorem getIpStrToChar_quad {str : Text} {ip : List Byte} (h : DottedQuad str ip) :
    getIpStrToChar str = some (some ip) := by
  obtain ⟨hlen, hfs, rfl⟩ := h.fields
  rw [getIpStrToChar_eq, ipFields_eq_some_iff (List.splitOn_ne_nil '.' str)]
  refine ⟨by simpa using hlen, fun f hf => ?_, ?_⟩
  · obtain ⟨h1, h2, h3⟩ := hfs f hf
    rw [stoi_decimal h1 h2 h3]
    exact Option.some_ne_none _
  · rw [List.nil_append]
    refine List.map_congr_left fun f hf => ?_
    obtain ⟨h1, h2, h3⟩ := hfs f hf
    unfold byteOf
    rw [stoi_decimal h1 h2 h3, Option.getD_some]
    exact (BitVec.ofInt_natCast ..).symm

/-- The loop of `get_ip_strToChar` with the array `ip` and its index `j`. -/
def checkedIpLoop (ip : List Byte) (j : ℕ) (intermediate : Text) : Text → Checked (Option (List Byte))
  | [] =>
    if 4 ≤ j then .done none
    else (Checked.ofOption (stoi intermediate)).bind fun v =>
      (Checked.put ip j (BitVec.ofInt 8 v)).map fun ip => if j + 1 = 4 then some ip else none
  | c :: str =>
    if c = '.' then
      if 4 ≤ j then .done none
      else (Checked.ofOption (stoi intermediate)).bind fun v =>
        (Checked.put ip j (BitVec.ofInt 8 v)).bind fun ip => checkedIpLoop ip (j + 1) [] str
    else checkedIpLoop ip j (intermediate ++ [c]) str

/-- `get_ip_strToChar` with the caller's array. -/
def checkedGetIpStrToChar (str : Text) (ip : Bytes 4) : Checked (Option (List Byte)) := checkedIpLoop ip.1 0 [] str

theorem take_set_succ {ip : List Byte} {j : ℕ} (h : j < ip.length) (b : Byte) :
    (ip.set j b).take (j + 1) = ip.take j ++ [b] := by
  rw [List.take_succ_eq_append_getElem (by simpa using h), List.getElem_set_self, List.take_set_of_le le_rfl]

theorem checkedIpLoop_eq (str : Text) : ∀ (ip : List Byte) (j : ℕ) (intermediate : Text), ip.length = 4 → j ≤ 4 →
    checkedIpLoop ip j intermediate str = Checked.ofOption (ipLoop (ip.take j) intermediate str) := by
  induction str with
  | nil =>
    intro ip j intermediate hlen hj
    rw [checkedIpLoop, ipLoop, List.length_take, hlen, Nat.min_eq_left hj]
    split
    · rfl
    · rename_i h4
      have hlt : j < ip.length := by omega
      cases stoi intermediate with
      | none => rfl
      | some v =>
        rw [Checked.ofOption_some, Checked.bind_done, Checked.put_eq hlt, Checked.map_done, Option.map_some,
          ← take_set_succ hlt]
        by_cases h3 : j + 1 = 4
        · rw [if_pos h3, if_pos h3, h3, List.take_of_length_le (by rw [List.length_set, hlen])]
          rfl
        · rw [if_neg h3, if_neg h3]
          rfl
  | cons c str ih =>
    intro ip j intermediate hlen hj
    rw [checkedIpLoop, ipLoop, List.length_take, hlen, Nat.min_eq_left hj]
    split
    · split
      · rfl
      · rename_i h4
        have hlt : j < ip.length := by omega
        cases stoi intermediate with
        | none => rfl
        | some v =>
          rw [Checked.ofOption_some, Checked.bind_done, Checked.put_eq hlt, Checked.bind_done, Option.bind_some,
            ← take_set_succ hlt]
          exact ih _ _ _ (by rw [List.length_set, hlen]) (by omega)
    · exact ih _ _ _ hlen hj

/-- What `insert_connect_socket` returns, and that it changes the table only when it
returns 1. -/
theorem insertConnectSocket_eq {k k' : Sockets} {sockID srcPort destPort r : ℤ} {str : Text}
    (h : k.insertConnectSocket sockID str srcPort destPort = some (r, k')) :
    r = -1 ∧ k' = k ∧ getIpStrToChar str = some none ∨ r = 1 ∧ ∃ ip, getIpStrToChar str = some (some ip) ∧
      k'.connectedSockets = k.connectedSockets.insert sockID ⟨ip, srcPort, destPort⟩ := by
  obtain ⟨o, ho, hr⟩ := Option.map_eq_some_iff.mp h
  cases o with
  | none =>
    obtain ⟨rfl, rfl⟩ := Prod.mk.inj hr
    exact Or.inl ⟨rfl, rfl, ho⟩
  | some ip =>
    obtain ⟨rfl, rfl⟩ := Prod.mk.inj hr
    exact Or.inr ⟨rfl, ip, ho, rfl⟩

/-- `get_ip_strToChar` returns 1 with the bytes of a dotted quad exactly for those,
and -1 for every other text. -/
def ParsesQuads (str : Text) : Prop :=
  (∀ ip, getIpStrToChar str = some (some ip) ↔ DottedQuad str ip) ∧
    ((∀ ip, ¬ DottedQuad str ip) → getIpStrToChar str = some none)

theorem parsesQuads_iff (str : Text) : ParsesQuads str ↔ (∃ ip, DottedQuad str ip) ∨
    (∀ f ∈ (str.splitOn '.').take 4, stoi f ≠ none) ∧ (str.splitOn '.').length ≠ 4 := by
  have hnone := @ipFields_eq_none_iff (str.splitOn '.') [] (by simp)
  have hsome : ∀ {bytes}, _ := @ipFields_eq_some_iff (str.splitOn '.') (List.splitOn_ne_nil '.' str) []
  rw [← getIpStrToChar_eq] at hnone hsome
  constructor
  · rintro ⟨-, h⟩
    by_cases hq : ∃ ip, DottedQuad str ip
    · exact Or.inl hq
    · have hres := h fun ip hip => hq ⟨ip, hip⟩
      have hall : ∀ f ∈ (str.splitOn '.').take 4, stoi f ≠ none := fun f hf hn => by
        rw [hnone.mpr ⟨f, hf, hn⟩] at hres
        simp at hres
      refine Or.inr ⟨hall, fun h4 => ?_⟩
      rw [List.take_of_length_le h4.le] at hall
      rw [hsome.mpr ⟨by simpa using h4, hall, rfl⟩] at hres
      simp at hres
  · rintro (⟨ip, hip⟩ | ⟨hall, h4⟩)
    · have hres := getIpStrToChar_quad hip
      refine ⟨fun ip' => ⟨fun h => ?_, getIpStrToChar_quad⟩, fun h => absurd hip (h ip)⟩
      obtain rfl : ip = ip' := Option.some.inj (Option.some.inj (hres.symm.trans h))
      exact hip
    · have hres : getIpStrToChar str = some none := by
        cases hg : getIpStrToChar str with
        | none =>
          obtain ⟨f, hf, hn⟩ := hnone.mp hg
          exact absurd hn (hall f hf)
        | some o =>
          cases o with
          | none => rfl
          | some bytes => exact absurd (by simpa using (hsome.mp hg).1) h4
      refine ⟨fun ip => ⟨fun h => ?_, getIpStrToChar_quad⟩, fun _ => hres⟩
      rw [hres] at h
      simp at h

/-- **The addresses of `Connect`.** A text is treated as it should be, that is accepted
with its bytes if it is a dotted quad and refused with -1 otherwise, exactly when it
is a dotted quad, or has another number of fields and `stoi` throws on none of the
first four. For every text all writes are to the four bytes of `ip`, and
`insert_connect_socket` changes the table only when it returns 1. -/
theorem connect_parses (str : Text) :
    (ParsesQuads str ↔ (∃ ip, DottedQuad str ip) ∨
      (∀ f ∈ (str.splitOn '.').take 4, stoi f ≠ none) ∧ (str.splitOn '.').length ≠ 4) ∧
    (∀ ip, (checkedGetIpStrToChar str ip).Safe ∧
      checkedGetIpStrToChar str ip = Checked.ofOption (getIpStrToChar str)) ∧
    ∀ (k k' : Sockets) (sockID srcPort destPort r : ℤ),
      k.insertConnectSocket sockID str srcPort destPort = some (r, k') →
        r = -1 ∧ k' = k ∧ getIpStrToChar str = some none ∨
        r = 1 ∧ ∃ ip, getIpStrToChar str = some (some ip) ∧
          k'.connectedSockets = k.connectedSockets.insert sockID ⟨ip, srcPort, destPort⟩ := by
  refine ⟨parsesQuads_iff str, fun ip => ?_, fun k k' sockID srcPort destPort r h => insertConnectSocket_eq h⟩
  have heq : checkedGetIpStrToChar str ip = Checked.ofOption (getIpStrToChar str) :=
    checkedIpLoop_eq str ip.1 0 [] ip.2 (Nat.zero_le 4)
  exact ⟨by rw [heq]; exact Checked.safe_ofOption _, heq⟩

/-- Blanks, signs, letters behind the digits and values above 255 are accepted, and
an empty field throws. -/
theorem connect_accepts_more :
    getIpStrToChar " 1.+2.3x.260".toList = some (some [1, 2, 3, 4]) ∧
    (∀ ip, ¬ DottedQuad " 1.+2.3x.260".toList ip) ∧
    getIpStrToChar "1..2.3".toList = none ∧ ∀ ip, ¬ DottedQuad "1..2.3".toList ip := by
  have hthrows : getIpStrToChar "1..2.3".toList = none := by decide +kernel
  refine ⟨by decide +kernel, fun ip h => ?_, hthrows, fun ip h => ?_⟩
  · have hmem : " 1".toList ∈ " 1.+2.3x.260".toList.splitOn '.' := by decide +kernel
    exact absurd ((h.fields.2.1 _ hmem).2.1 ' ' (by decide)) (by decide)
  · rw [getIpStrToChar_quad h] at hthrows
    simp at hthrows

/-! ### Closing a socket -/

namespace Sockets

theorem find?_bindSockets_deleteSocket (k : Sockets) (sockID p : ℤ) :
    (k.deleteSocket sockID).bindSockets.find? p =
      if k.portOf sockID ≠ -1 ∧ p = k.portOf sockID then none else k.bindSockets.find? p := by
  unfold deleteSocket
  dsimp only
  by_cases h : k.portOf sockID ≠ -1
  · rw [if_pos h, OrdMap.find?_erase]
    simp [h]
  · rw [if_neg h]
    simp [h]

/-- No port is left to a closed socket exactly when it had one port at most, and not
the port -1. -/
theorem released_iff (k : Sockets) (sockID : ℤ) :
    (∀ p, (k.deleteSocket sockID).bindSockets.find? p ≠ some sockID) ↔
      (∀ p q, k.bindSockets.find? p = some sockID → k.bindSockets.find? q = some sockID → p = q) ∧
        k.bindSockets.find? (-1) ≠ some sockID := by
  constructor
  · intro h
    -- a port that is released is the one that was found
    have hport : ∀ p, k.bindSockets.find? p = some sockID → k.portOf sockID ≠ -1 ∧ p = k.portOf sockID := by
      intro p hp
      by_contra hne
      refine h p ?_
      rw [find?_bindSockets_deleteSocket, if_neg hne, hp]
    refine ⟨fun p q hp hq => (hport p hp).2.trans (hport q hq).2.symm, fun hm => ?_⟩
    obtain ⟨h1, h2⟩ := hport (-1) hm
    exact h1 h2.symm
  · rintro ⟨hone, hm⟩ p hp
    have hbound := find?_deleteSocket hp
    have hportOf : k.portOf sockID = p := portOf_eq hbound fun q hq => hone q p hq hbound
    have hne : p ≠ -1 := by
      rintro rfl
      exact hm hbound
    rw [find?_bindSockets_deleteSocket, hportOf, if_pos ⟨hne, rfl⟩] at hp
    simp at hp

theorem find?_deleteSocket_iff (k : Sockets) {sockID p x : ℤ} (hx : x ≠ sockID) :
    (k.deleteSocket sockID).bindSockets.find? p = some x ↔ k.bindSockets.find? p = some x :=
  ⟨find?_deleteSocket, fun h => find?_deleteSocket_of_ne h hx⟩

theorem find?_connectedSockets_deleteSocket (k : Sockets) (sockID x : ℤ) :
    (k.deleteSocket sockID).connectedSockets.find? x =
      if x = sockID then none else k.connectedSockets.find? x :=
  OrdMap.find?_erase ..

end Sockets

namespace SocketRun

variable {τ : Type*} [DecidableEq τ] {s s' : SocketRun τ}

/-- `Bind` is called for a socket without a port, and not with the port -1. -/
def OneBind (s : SocketRun τ) : Event τ → Prop
  | .bind sockID port => port ≠ -1 ∧ ∀ p, s.kernel.bindSockets.find? p ≠ some sockID
  | _ => True

theorem bound_of_step {e : Event τ} {p x : ℤ} (h : s.step e = some s')
    (hb : s'.kernel.bindSockets.find? p = some x) : s.kernel.bindSockets.find? p = some x ∨ e = .bind x p := by
  by_cases hbind : ∃ y q, e = .bind y q
  · obtain ⟨y, q, rfl⟩ := hbind
    obtain rfl := Option.some.inj h
    unfold Sockets.insertBindSocket at hb
    split at hb
    · exact Or.inl hb
    · simp only [Sockets.bindSockets_withQueue, OrdMap.find?_insert] at hb
      split at hb
      · rename_i hp
        exact Or.inr (by rw [hp, Option.some.inj hb])
      · exact Or.inl hb
  · by_cases hclose : ∃ y, e = .closeSocket y
    · obtain ⟨y, rfl⟩ := hclose
      obtain rfl := Option.some.inj h
      exact Or.inl (Sockets.find?_deleteSocket hb)
    · rw [bindSockets_step h (fun y q hy => hbind ⟨y, q, hy⟩) fun y hy => hclose ⟨y, hy⟩] at hb
      exact Or.inl hb

/-- Every socket has one port at most, and no one has the port -1. -/
def OnePort (s : SocketRun τ) : Prop :=
  (∀ x p q, s.kernel.bindSockets.find? p = some x → s.kernel.bindSockets.find? q = some x → p = q) ∧
    ∀ x, s.kernel.bindSockets.find? (-1) ≠ some x

theorem OnePort.step {e : Event τ} (hi : s.OnePort) (hc : s.OneBind e) (h : s.step e = some s') : s'.OnePort := by
  have hfree : ∀ {x p}, e = .bind x p → ∀ q, s.kernel.bindSockets.find? q ≠ some x := by
    rintro x p rfl
    exact hc.2
  constructor
  · intro x p q hp hq
    rcases bound_of_step h hp with hp | hp
    · rcases bound_of_step h hq with hq | hq
      · exact hi.1 x p q hp hq
      · exact absurd hp (hfree hq p)
    · rcases bound_of_step h hq with hq | hq
      · exact absurd hq (hfree hp q)
      · rw [hp] at hq
        exact (Event.bind.inj hq).2
  · intro x hx
    rcases bound_of_step h hx with hx | rfl
    · exact hi.2 x hx
    · exact hc.1 rfl

/-- **Closing a socket.** In every state that the socket calls reach, closing a socket
removes its connection and leaves the connections and the ports of the other sockets
as they are. It releases all its ports exactly when it has one at most and that is
not -1; so it does in every run in which `Bind` is called only for sockets without a
port and not with -1, and each port it had can be bound again. -/
theorem close_releases (es : List (Event τ)) (s : SocketRun τ) (h : exec step init es = some s) (sockID : ℤ) :
    (s.kernel.deleteSocket sockID).connectedSockets.find? sockID = none ∧
    (∀ x, x ≠ sockID →
      (s.kernel.deleteSocket sockID).connectedSockets.find? x = s.kernel.connectedSockets.find? x) ∧
    (∀ p x, x ≠ sockID →
      ((s.kernel.deleteSocket sockID).bindSockets.find? p = some x ↔ s.kernel.bindSockets.find? p = some x)) ∧
    ((∀ p, (s.kernel.deleteSocket sockID).bindSockets.find? p ≠ some sockID) ↔
      (∀ p q, s.kernel.bindSockets.find? p = some sockID → s.kernel.bindSockets.find? q = some sockID → p = q) ∧
        s.kernel.bindSockets.find? (-1) ≠ some sockID) ∧
    (Along step OneBind init es →
      (∀ p, (s.kernel.deleteSocket sockID).bindSockets.find? p ≠ some sockID) ∧
      ∀ p, s.kernel.bindSockets.find? p = some sockID →
        ∀ x, ((s.kernel.deleteSocket sockID).insertBindSocket x p).1 = 1) := by
  have hreleased := s.kernel.released_iff sockID
  refine ⟨?_, fun x hx => ?_, fun p x hx => s.kernel.find?_deleteSocket_iff hx, hreleased, fun hC => ?_⟩
  · rw [Sockets.find?_connectedSockets_deleteSocket, if_pos rfl]
  · rw [Sockets.find?_connectedSockets_deleteSocket, if_neg hx]
  · have hone : s.OnePort := exec_induction_along (P := fun _ s => s.OnePort)
      ⟨fun x p q hp => by simp [init, Sockets.init] at hp, fun x hx => by simp [init, Sockets.init] at hx⟩
      (fun _ _ _ _ hi hc hs => hi.step hc hs) es s hC h
    have hfree := hreleased.mpr ⟨hone.1 sockID, hone.2 sockID⟩
    refine ⟨hfree, fun p hp x => ?_⟩
    -- the port has no socket any more: not this one, and no other had it
    have hnone : (s.kernel.deleteSocket sockID).bindSockets.find? p = none := by
      cases hf : (s.kernel.deleteSocket sockID).bindSockets.find? p with
      | none => rfl
      | some y =>
        have hy := Sockets.find?_deleteSocket hf
        rw [hp] at hy
        exact absurd hf (Option.some.inj hy ▸ hfree p)
    unfold Sockets.insertBindSocket
    rw [hnone]

/-- Two sockets are made, bound and connected. -/
def boundRun : List (Event Unit) :=
  [.createSocket, .createSocket, .bind 1 80, .bind 2 (-7), .connect 1 "10.0.0.1".toList 80 90]

theorem along_boundRun : Along step OneBind init boundRun := by
  refine ⟨trivial, fun s₁ h₁ => ⟨trivial, fun s₂ h₂ => ?_⟩⟩
  obtain rfl := Option.some.inj h₁
  obtain rfl := Option.some.inj h₂
  refine ⟨⟨by decide, fun p => ?_⟩, fun s₃ h₃ => ?_⟩
  · exact fun h => (nomatch (OrdMap.find?_empty (β := ℤ) p).symm.trans h)
  · obtain rfl := Option.some.inj h₃
    refine ⟨⟨by decide, fun p => ?_⟩, fun s₄ _ => ⟨trivial, fun _ _ => trivial⟩⟩
    show (OrdMap.empty.insert 80 1).find? p ≠ some 2
    rw [OrdMap.find?_insert, OrdMap.find?_empty]
    split
    · decide
    · decide

theorem close_releases_boundRun : ∃ s, exec step init boundRun = some s ∧
    s.kernel.bindSockets.find? 80 = some 1 ∧
    (∀ p, (s.kernel.deleteSocket 1).bindSockets.find? p ≠ some 1) ∧
    (s.kernel.deleteSocket 1).bindSockets.find? (-7) = some 2 ∧
    ∀ x, ((s.kernel.deleteSocket 1).insertBindSocket x 80).1 = 1 := by
  have hrun : ∃ s, exec step init boundRun = some s ∧ s.kernel.bindSockets.find? 80 = some 1 ∧
      s.kernel.bindSockets.find? (-7) = some 2 := by
    refine ⟨_, rfl, ?_⟩
    decide +kernel
  obtain ⟨s, hs, h80, h7⟩ := hrun
  obtain ⟨-, -, hother, -, h⟩ := close_releases boundRun s hs 1
  obtain ⟨hfree, hagain⟩ := h along_boundRun
  exact ⟨s, hs, h80, hfree, (hother (-7) 2 (by decide)).mpr h7, hagain 80 h80⟩

/-- A socket with two ports keeps the second, and one with the port -1 keeps that. -/
theorem close_keeps_port :
    ((exec step (init : SocketRun Unit) [.createSocket, .bind 1 80, .bind 1 81]).map fun s =>
      (s.kernel.deleteSocket 1).bindSockets.find? 81) = some (some 1) ∧
    ((exec step (init : SocketRun Unit) [.createSocket, .bind 1 (-1)]).map fun s =>
      (s.kernel.deleteSocket 1).bindSockets.find? (-1)) = some (some 1) := by
  decide +kernel

end SocketRun

end Nachos
