import Mlib.Properties.TiledFiles

/-! Well formed records that are carried into another file hold what they held, and are well formed there: the
records of a file in which one bucket grew, and records that were moved whole. -/
namespace Mlib
open Foundation

variable {a b off o n stop x y : Nat} {f g : Bytes} {s t : Lib} {offs : List Nat} {name : CStr} {paths : List CStr}

/-- A record whose bytes all stand somewhere else. -/
theorem carried_whole (h : WellFormedRecord f x) (hg : StandsIn x y (word f (x + 4)) f g) :
    Carried f g x y 0 := by
  have hlen := h.length
  have hstr := h.strings
  have hix := h.indexes
  have hword : ∀ k, k + 4 ≤ word f (x + 4) → word g (y + k) = word f (x + k) := fun k hk =>
    hg.word (by omega) (by omega) (by omega)
  exact ⟨hg.sub (by omega) (by omega) (by omega), hword 4 (by omega), hg.sub (by omega) (by omega) (by omega),
    hword 132 (by omega), hword 136 (by omega), hg.sub (by omega) (by omega) (by omega),
    hg.sub (by omega) (by omega) (by omega)⟩

section carried
variable (hg : Carried f g x y n) (h : WellFormedRecord f x)
include hg h

/-- The record holds what it held. -/
theorem Carried.contains (hc : Contains f x name paths) : Contains g y name paths := by
  have hlen := h.length
  have hstr := h.strings
  have hix := h.indexes
  have hcount := h.count
  have hsb := hg.strBytes (by omega)
  refine ⟨hc.short, ?_, hc.count.trans hg.mcount.symm, hc.sorted, fun i hi => ?_⟩
  · exact hg.name.starts hc.name (by omega) (by omega) (by have := hc.short; rw [CStr.mem_length]; omega)
  obtain ⟨k, hk, hlt, hend, hpath, hprev⟩ := hc.paths i hi
  have hi' : i < word f (x + 8) := hc.count ▸ hi
  have hindex : word g (y + 128 + word g (y + 136) + 4 * i) = k := by
    rw [← hk, hg.indexOffs]
    exact hg.indexes.word (by omega) (by omega) (by omega)
  refine ⟨k, hindex, hsb.symm ▸ hlt, hsb.symm ▸ hend, ?_, hprev.imp_right fun hnul => ?_⟩
  · exact hg.strings.starts hpath (by omega) (by omega) (by omega)
  · have hsame : g[y + 140 + (3 + k)]? = f[x + 140 + (3 + k)]? := hg.strings _ (by omega)
    rw [← Nat.add_assoc, ← Nat.add_assoc] at hsame
    exact hsame.trans hnul

/-- And is well formed again. -/
theorem Carried.wellFormed : WellFormedRecord g y := by
  obtain ⟨name, paths, hc⟩ := h.contains
  have hc' := hg.contains h hc
  have hlen := h.length
  have hstr := h.strings
  have hix := h.indexes
  have hcount := h.count
  have hsb := hg.strBytes (by omega)
  have hmc := hg.mcount
  have hpl := hg.length
  have hbl := hg.bucketLength
  have hio := hg.indexOffs
  refine ⟨?_, ?_, by omega, ?_, by omega, by omega, by omega, paths, hc'.count, hc'.sorted, hc'.paths⟩
  · rw [← h.magic, hg.magic.word (Nat.le_refl _) rfl (Nat.le_refl _)]
  · obtain ⟨rest, hrest⟩ := hc'.name
    refine ⟨name.val.length, hc.short, ?_⟩
    rw [← List.getElem?_drop, ← hrest, CStr.mem, List.append_assoc,
      List.getElem?_append_right (Nat.le_refl _), Nat.sub_self]
    rfl
  · have hmagic : word g (y + 128) = word f (x + 128) := hg.name.word (by omega) (by omega) (by omega)
    rw [hmagic, h.bucketMagic]

/-- What is listed of it is the same in both files. -/
theorem Carried.listed (hin : x + word f (x + 4) ≤ f.length) (hin' : y + word g (y + 4) ≤ g.length)
    (e : Endian) (b a : Nat) :
    ∃ record, mlibListRecord e ⟨b, f⟩ (b + x) = .ok record ∧ mlibListRecord e ⟨a, g⟩ (a + y) = .ok record := by
  obtain ⟨name, paths, hc⟩ := h.contains
  exact ⟨_, hc.listed h hin e b, (hg.contains h hc).listed (hg.wellFormed h) hin' e a⟩

end carried

/-- Records that follow each other do so wherever their bytes stand as a block, and the same is listed of them. -/
theorem Spans.moved (h : Spans f off offs stop) (hg : StandsIn off y (stop - off) f g) (hin : stop ≤ f.length)
    (hin' : y + (stop - off) ≤ g.length) (e : Endian) (b a : Nat) :
    ∃ offs' records, Spans g y offs' (y + (stop - off)) ∧
      offs.mapM (fun o => mlibListRecord e ⟨b, f⟩ (b + o)) = .ok records ∧
      offs'.mapM (fun o => mlibListRecord e ⟨a, g⟩ (a + o)) = .ok records ∧ offs'.length = offs.length := by
  induction offs generalizing off y with
  | nil =>
    obtain rfl : off = stop := h
    exact ⟨[], [], by rw [Nat.sub_self]; rfl, rfl, rfl, rfl⟩
  | cons o offs ih =>
    have hend := (h.record List.mem_cons_self).2.2
    obtain ⟨rfl, hr, h⟩ := h
    have hcarried := carried_whole hr (hg.sub (Nat.le_refl o) rfl (by omega))
    have hlen : word g (y + 4) = word f (o + 4) := hcarried.length
    obtain ⟨record, hrec, hrec'⟩ := hcarried.listed hr (by omega) (by omega) e b a
    obtain ⟨offs', records, hspans, hrecs, hrecs', hcount⟩ := @ih (o + word f (o + 4)) (y + word f (o + 4)) h
      (hg.sub (by omega) (by omega) (by omega)) (by omega)
    refine ⟨y :: offs', record :: records, ⟨rfl, hcarried.wellFormed hr, ?_⟩, ?_, ?_, congrArg (· + 1) hcount⟩
    · rwa [hlen, show y + (stop - o) = y + word f (o + 4) + (stop - (o + word f (o + 4))) by omega]
    · rw [List.mapM_cons, hrec, ok_bind, hrecs]
      rfl
    · rw [List.mapM_cons, hrec', ok_bind, hrecs']
      rfl

/-- The bytes of a record are a well formed record wherever they stand. -/
theorem Record.wellFormed (r : Record) (hlen : r.length + 1024 < 2 ^ 32) (pre post : Bytes) :
    WellFormedRecord (pre ++ (r.bytes ++ post)) pre.length ∧
      word (pre ++ (r.bytes ++ post)) (pre.length + 4) = r.length := by
  set J : Image := ⟨CStr.empty, Nat.zero_le 115, CStr.empty, Nat.zero_le 895, [r]⟩
  have hJ : J.recs = [] ++ r :: [] := rfl
  have hsize := Image.size_split hJ
  obtain ⟨hwf, hword⟩ := wellFormedRecord_image hJ (by rw [recsBytes_nil, List.length_nil] at hsize; omega)
  have hstands : StandsIn (recAddr 0 []) pre.length r.length J.bytes (pre ++ (r.bytes ++ post)) := by
    intro i hi
    have hpre : (J.head J.size ++ recsBytes []).length = recAddr 0 [] := by
      rw [← @Image.pre_addr 0 J [] J.size, Nat.zero_add]
    rw [Image.bytes_split hJ, ← hpre, List.getElem?_append_right (Nat.le_add_right _ _),
      Nat.add_sub_cancel_left,
      List.getElem?_append_right (Nat.le_add_right _ _), Nat.add_sub_cancel_left,
      List.getElem?_append_left (by rw [r.bytes_length]; exact hi), List.getElem?_append_left (by rw [r.bytes_length]; exact hi)]
  rw [← hword] at hstands
  have hcarried := carried_whole hwf hstands
  exact ⟨hcarried.wellFormed hwf, by rw [hcarried.length, hword, Nat.add_zero]⟩

/-- How much further on the record at `x` is after the bucket of the record at `o` grew by `n` bytes, and how much
longer it is. -/
def pushed (o n x : Nat) : Nat := if o < x then n else 0
def raised (o n x : Nat) : Nat := if x = o then n else 0

theorem mem_pushed (ho : o ∈ offs) (n : Nat) : o ∈ offs.map fun x => x + pushed o n x :=
  List.mem_map.mpr ⟨o, ho, by rw [pushed, if_neg (Nat.lt_irrefl o), Nat.add_zero]⟩

/-- Each record is in the new file. -/
theorem GrownFile.carried (hg : GrownFile f g o n) (h : Tiles f 1024 offs) (ho : o ∈ offs) {x : Nat}
    (hx : x ∈ offs) :
    Carried f g x (x + pushed o n x) (raised o n x) := by
  obtain ⟨hr, hle, hin⟩ := h.record hx
  rcases lt_trichotomy x o with hlt | rfl | hlt
  · have hapart := h.apart hx ho hlt
    rw [pushed, raised, if_neg hlt.not_gt, if_neg hlt.ne]
    exact carried_whole hr (hg.before.sub (by omega) (by omega) (by omega))
  · rw [pushed, raised, if_neg (Nat.lt_irrefl x), if_pos rfl]
    exact hg.record
  · have hapart := h.apart ho hx hlt
    rw [pushed, raised, if_pos hlt, if_neg hlt.ne']
    exact carried_whole hr (hg.behind.sub hapart (by omega) (by omega))

private theorem tiles_pushed (h : Tiles f off offs)
    (hg : ∀ x ∈ offs, Carried f g x (x + pushed o n x) (raised o n x))
    (hlen : g.length = f.length + n) (ho : o ∈ offs ∨ o < off) :
    Tiles g (off + pushed o n off) (offs.map fun x => x + pushed o n x) := by
  induction offs generalizing off with
  | nil =>
    have hoff : o < off := ho.resolve_left List.not_mem_nil
    have hend : off = f.length := h
    rw [pushed, if_pos hoff, List.map_nil, Tiles, hend, hlen]
  | cons x offs ih =>
    obtain ⟨rfl, hr, h⟩ := h
    have hx := hg x List.mem_cons_self
    have hlong := hr.length_ge
    have hnext : (o ∈ offs ∨ o < x + word f (x + 4)) ∧
      pushed o n (x + word f (x + 4)) = pushed o n x + raised o n x := by
      unfold pushed raised
      rcases ho with ho | ho
      · rcases List.mem_cons.mp ho with rfl | ho
        · exact ⟨Or.inr (by omega), by rw [if_pos (by omega), if_neg (Nat.lt_irrefl o), if_pos rfl, Nat.zero_add]⟩
        · have hle := (h.record ho).2.1
          exact ⟨Or.inl ho, by rw [if_neg (by omega), if_neg (by omega), if_neg (by omega)]⟩
      · exact ⟨Or.inr (by omega), by rw [if_pos (by omega), if_pos ho, if_neg (by omega)]; rfl⟩
    refine ⟨rfl, hx.wellFormed hr, ?_⟩
    rw [hx.length, show x + pushed o n x + (word f (x + 4) + raised o n x) =
      x + word f (x + 4) + pushed o n (x + word f (x + 4)) by rw [hnext.2]; omega]
    exact ih h (fun y hy => hg y (List.mem_cons_of_mem x hy)) hnext.1

theorem GrownFile.tiles (hg : GrownFile f g o n) (h : Tiles f 1024 offs) (ho : o ∈ offs) :
    Tiles g 1024 (offs.map fun x => x + pushed o n x) := by
  have hle := (h.record ho).2.1
  have hfirst : pushed o n 1024 = 0 := if_neg (by omega)
  have ht := tiles_pushed h (fun x hx => hg.carried h ho hx) hg.length (Or.inl ho)
  rwa [hfirst] at ht

/-- The library after a growth, wherever it is mapped then. -/
theorem Tiled.grown (h : Tiled b f offs s) (ho : o ∈ offs) (ht : Shows a g t) (hg : GrownFile f g o n) :
    Tiled a g (offs.map fun x => x + pushed o n x) t :=
  ⟨ht, hg.states, hg.tiles h.tiles ho⟩

/-- What is listed after it is what was listed before it. -/
theorem Tiled.grown_records (h : Tiled b f offs s) (ho : o ∈ offs) (ht : Shows a g t)
    (hg : GrownFile f g o n) (e : Endian) :
    ∃ records, mlibListRecords e s.mem = .ok records ∧ mlibListRecords e t.mem = .ok records := by
  have hg' := hg.tiles h.tiles ho
  rw [h.shows.mem, ht.mem, h.tiles.listRecords h.states, hg'.listRecords hg.states, List.mapM_map]
  refine mapM_same offs fun x hx => ?_
  obtain ⟨hr, -, hin⟩ := h.tiles.record hx
  exact (hg.carried h.tiles ho hx).listed hr hin (hg'.record (List.mem_map_of_mem hx)).2.2 e b a

end Mlib
