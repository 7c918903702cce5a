import AuraOS.IntegerSquareRoots

namespace AuraOS.Framebuffer

open CheckedWords

/-- The pixels of a canvas, row by row; no vector has more than `isize::MAX` bytes. -/
structure Canvas where
  width : Nat
  height : Nat
  pixels : List UInt32
  size : pixels.length = width * height
  allocated : pixels.length < 2 ^ 61

/-- `self.pixels[index] = color`; an index out of bounds panics. -/
def Canvas.store (canvas : Canvas) (index : Nat) (color : UInt32) : Option Canvas :=
  if index < canvas.pixels.length then
    some { canvas with
      pixels := canvas.pixels.set index color
      size := by rw [List.length_set, canvas.size]
      allocated := by rw [List.length_set]; exact canvas.allocated }
  else none

/-- A result of `isize` arithmetic; `none` if it overflows. -/
def isize (value : Int) : Option Int :=
  if -2 ^ 63 ≤ value ∧ value < 2 ^ 63 then some value else none

def asUsize (value : Int) : Nat := (value % 2 ^ 64).toNat

def asIsize (value : Nat) : Int := if value < 2 ^ 63 then value else value - 2 ^ 64

/-- The body of the loop `for index in start..stop`, run for each index. -/
def forRange (start stop : Nat) (body : Canvas → Nat → Option Canvas) (canvas : Canvas) :
    Option Canvas :=
  (List.range' start (stop - start)).foldlM body canvas

/-- The columns `start..stop` of one row. -/
def Canvas.fillSpan (py start stop : Nat) (color : UInt32) (canvas : Canvas) : Option Canvas := do
  let rowOffset ← checkedMul 64 py canvas.width
  forRange start stop
    (fun canvas px => do canvas.store (← checkedAdd 64 rowOffset px) color) canvas

/-- One row of `fill_circle`. -/
def Canvas.fillCircleRow (cx cy r2 : Int) (color : UInt32) (canvas : Canvas) (py : Nat) :
    Option Canvas := do
  let dy ← isize (asIsize py - cy)
  let dy2 ← isize (dy * dy)
  let rest ← isize (r2 - dy2)
  let root ← integerSqrt (asUsize (max rest 0))
  let dxMax := asIsize root
  let left ← isize (cx - dxMax)
  let right ← isize (cx + dxMax)
  let right ← isize (right + 1)
  canvas.fillSpan py (asUsize (max left 0)) (asUsize (min right (asIsize canvas.width))) color

def Canvas.fillCircle (canvas : Canvas) (cx cy radius : Int) (color : UInt32) : Option Canvas := do
  let r2 ← isize (radius * radius)
  let top ← isize (cy - radius)
  let bottom ← isize (cy + radius)
  let bottom ← isize (bottom + 1)
  forRange (asUsize (max top 0)) (asUsize (min bottom (asIsize canvas.height)))
    (Canvas.fillCircleRow cx cy r2 color) canvas

section Painting

variable {canvas : Canvas} {w h x y start stop : Nat} {color : UInt32} {P Q : Nat → Nat → Prop}
  {run next : Canvas → Option Canvas} {body : Canvas → Nat → Option Canvas}

def Canvas.pixel (canvas : Canvas) (x y : Nat) : Option UInt32 :=
  canvas.pixels[y * canvas.width + x]?

/-- On a canvas of this size, the run gives the colour to the pixels with the property and
leaves all others as they were. -/
def Paints (w h : Nat) (color : UInt32) (run : Canvas → Option Canvas) (P : Nat → Nat → Prop) :
    Prop :=
  ∀ canvas : Canvas, canvas.width = w → canvas.height = h → ∃ canvas', run canvas = some canvas' ∧
    canvas'.width = w ∧ canvas'.height = h ∧ ∀ x < w, ∀ y < h,
      P x y ∧ canvas'.pixel x y = some color ∨ ¬ P x y ∧ canvas'.pixel x y = canvas.pixel x y

theorem Paints.skip : Paints w h color some fun _ _ => False :=
  fun canvas hwidth hheight => ⟨canvas, rfl, hwidth, hheight, fun _ _ _ _ => .inr ⟨id, rfl⟩⟩

theorem Paints.seq (hrun : Paints w h color run P) (hnext : Paints w h color next Q) :
    Paints w h color (fun canvas => run canvas >>= next) fun x y => P x y ∨ Q x y := by
  intro canvas hwidth hheight
  obtain ⟨canvas₁, heq, hwidth, hheight, hpixels⟩ := hrun canvas hwidth hheight
  obtain ⟨canvas', heq', hwidth, hheight, hpixels'⟩ := hnext canvas₁ hwidth hheight
  refine ⟨canvas', (congrArg (· >>= next) heq).trans heq', hwidth, hheight, fun x hx y hy => ?_⟩
  grind

theorem Paints.congr (hrun : Paints w h color run P)
    (hcovers : ∀ x < w, ∀ y < h, P x y ↔ Q x y) : Paints w h color run Q := by
  intro canvas hwidth hheight
  obtain ⟨canvas', heq, hwidth, hheight, hpixels⟩ := hrun canvas hwidth hheight
  refine ⟨canvas', heq, hwidth, hheight, fun x hx y hy => ?_⟩
  rw [← hcovers x hx y hy]
  exact hpixels x hx y hy

theorem Paints.forRange (covers : Nat → Nat → Nat → Prop)
    (hbody : ∀ i, start ≤ i → i < stop → Paints w h color (body · i) (covers i)) :
    Paints w h color (forRange start stop body)
      fun x y => ∃ i, start ≤ i ∧ i < stop ∧ covers i x y := by
  have hrun : ∀ items : List Nat, (∀ i ∈ items, start ≤ i ∧ i < stop) →
      Paints w h color (items.foldlM body) fun x y => ∃ i ∈ items, covers i x y := by
    intro items
    induction items with
    | nil => exact fun _ => Paints.skip.congr (by simp)
    | cons i rest ih =>
      intro hitems
      have hi := hitems i (.head _)
      refine ((hbody i hi.1 hi.2).seq (ih fun j hj => hitems j (.tail _ hj))).congr ?_
      simp
  refine (hrun _ fun i hi => ?_).congr fun x _ y _ => exists_congr fun i => ?_
  · rw [List.mem_range'_1] at hi
    omega
  · rw [List.mem_range'_1, ← and_assoc]
    refine and_congr_left fun _ => ?_
    omega

theorem index_inj {w x' y' : Nat} (hx : x < w) (hx' : x' < w) (h : y * w + x = y' * w + x') :
    x = x' ∧ y = y' := by
  have hrow := congrArg (· / w) h
  simp only [Nat.mul_comm _ w, Nat.mul_add_div (Nat.zero_lt_of_lt hx), Nat.div_eq_of_lt hx,
    Nat.div_eq_of_lt hx', Nat.add_zero] at hrow
  subst hrow
  exact ⟨Nat.add_left_cancel h, rfl⟩

theorem index_lt (hx : x < canvas.width) (hy : y < canvas.height) :
    y * canvas.width + x < canvas.pixels.length := by
  rw [canvas.size]
  calc y * canvas.width + x < (y + 1) * canvas.width := by rw [Nat.succ_mul]; omega
    _ ≤ canvas.height * canvas.width := Nat.mul_le_mul_right _ hy
    _ = canvas.width * canvas.height := Nat.mul_comm _ _

theorem Canvas.store_paints (hx : x < w) (hy : y < h) (color : UInt32) :
    Paints w h color (·.store (y * w + x) color) fun x' y' => x' = x ∧ y' = y := by
  rintro canvas rfl rfl
  have hindex := index_lt hx hy
  refine ⟨_, if_pos hindex, rfl, rfl, fun x' hx' y' _ => ?_⟩
  by_cases hat : x' = x ∧ y' = y
  · obtain ⟨rfl, rfl⟩ := hat
    exact .inl ⟨⟨rfl, rfl⟩, List.getElem?_set_self hindex⟩
  · refine .inr ⟨hat, List.getElem?_set_ne fun heq => hat ?_⟩
    exact (index_inj hx hx' heq).imp Eq.symm Eq.symm

theorem Canvas.fillSpan_paints (hy : y < h) (hstop : stop ≤ w) (color : UInt32) :
    Paints w h color (fillSpan y start stop color)
      fun x' y' => y' = y ∧ start ≤ x' ∧ x' < stop := by
  rintro canvas rfl rfl
  have hrow : y * canvas.width ≤ canvas.pixels.length := by
    rw [canvas.size, Nat.mul_comm]
    exact Nat.mul_le_mul_left _ hy.le
  have hallocated := canvas.allocated
  rw [fillSpan, checkedMul_of_lt (by omega)]
  refine (Paints.forRange (fun i x' y' => x' = i ∧ y' = y) fun i _ hi => ?_).congr
    (fun x' _ y' _ => ⟨?_, fun hat => ⟨x', hat.2.1, hat.2.2, rfl, hat.1⟩⟩) canvas rfl rfl
  · have hindex := index_lt (hi.trans_le hstop) hy
    rw [checkedAdd_of_lt (by omega)]
    exact store_paints (hi.trans_le hstop) hy color
  · rintro ⟨i, hstart, hlt, rfl, rfl⟩
    exact ⟨rfl, hstart, hlt⟩

end Painting

section Circle

variable {w h py : Nat} {cx cy radius : Int}

theorem isize_of {value : Int} (hlow : -2 ^ 63 ≤ value) (hhigh : value < 2 ^ 63) :
    isize value = some value :=
  if_pos ⟨hlow, hhigh⟩

theorem asUsize_of_nonneg {value : Int} (hlow : 0 ≤ value) (hhigh : value < 2 ^ 63) :
    asUsize value = value.toNat := by
  rw [asUsize, Int.emod_eq_of_lt hlow (by omega)]

theorem asIsize_of_lt {value : Nat} (h : value < 2 ^ 63) : asIsize value = value :=
  if_pos h

def InDisc (cx cy radius : Int) (px py : Nat) : Prop :=
  (px - cx) * (px - cx) + (py - cy) * (py - cy) ≤ radius * radius

/-- The numbers of `fill_circle` fit in an `isize`. -/
structure CircleFits (height : Nat) (cx cy radius : Int) : Prop where
  height : height < 2 ^ 63
  center : 0 ≤ cx ∧ 0 ≤ cy
  nonneg : 0 ≤ radius
  square : radius * radius < 2 ^ 63
  right : cx + radius + 1 < 2 ^ 63
  bottom : cy + radius + 1 < 2 ^ 63

theorem mul_self_le_iff {d : Int} (hnonneg : 0 ≤ radius) :
    d * d ≤ radius * radius ↔ -radius ≤ d ∧ d ≤ radius := by
  rw [← abs_le_iff_mul_self_le, abs_of_nonneg hnonneg, abs_le]

theorem mul_self_le_iff_sqrt (d : Int) {n : Int} (hn : 0 ≤ n) :
    d * d ≤ n ↔ -(Nat.sqrt n.toNat : Int) ≤ d ∧ d ≤ Nat.sqrt n.toNat := by
  have hsqrt : d.natAbs ≤ Nat.sqrt n.toNat ↔ d.natAbs * d.natAbs ≤ n.toNat := Nat.le_sqrt
  have hsquare : ((d.natAbs * d.natAbs : Nat) : Int) = d * d := Int.natAbs_mul_self
  omega

theorem Canvas.fillCircleRow_paints (hfits : CircleFits h cx cy radius) (hpy : py < h)
    (hdy : (py - cy) * (py - cy) ≤ radius * radius) (color : UInt32) :
    Paints w h color (fillCircleRow cx cy (radius * radius) color · py)
      fun x y => y = py ∧ InDisc cx cy radius x y := by
  rintro canvas rfl rfl
  obtain ⟨hheight, ⟨hcx, hcy⟩, hnonneg, hsquare, hright, hbottom⟩ := hfits
  have hdy0 : 0 ≤ ((py : Int) - cy) * (py - cy) := mul_self_nonneg _
  have hrest : 0 ≤ radius * radius - (py - cy) * (py - cy) := by omega
  have hspan := fun d => mul_self_le_iff_sqrt d hrest
  have hsquare' := (hspan (Nat.sqrt _)).mpr ⟨by omega, le_rfl⟩
  have hroot := ((mul_self_le_iff hnonneg).mp (hsquare'.trans (by omega))).2
  have hwidth : canvas.width < 2 ^ 61 :=
    (Nat.le_mul_of_pos_right _ (Nat.zero_lt_of_lt hpy)).trans_lt (canvas.size ▸ canvas.allocated)
  simp only [fillCircleRow, asIsize_of_lt (hpy.trans hheight),
    isize_of (show -2 ^ 63 ≤ (py : Int) - cy by omega) (by omega), Option.bind_eq_bind,
    Option.bind_some, isize_of (hdy0.trans' (by decide)) (by omega),
    isize_of (hrest.trans' (by decide)) (by omega), max_eq_left hrest]
  rw [asUsize_of_nonneg hrest (by omega), integerSqrt_eq (by omega), Option.bind_some]
  generalize Nat.sqrt _ = root at *
  simp only [asIsize_of_lt (show root < 2 ^ 63 by omega), asIsize_of_lt (hwidth.trans (by decide)),
    isize_of (show -2 ^ 63 ≤ cx - root by omega) (by omega),
    isize_of (show -2 ^ 63 ≤ cx + root by omega) (by omega),
    isize_of (show -2 ^ 63 ≤ cx + root + 1 by omega) (by omega), Option.bind_some]
  rw [asUsize_of_nonneg (by omega) (by omega), asUsize_of_nonneg (by omega) (by omega)]
  refine (fillSpan_paints hpy (by omega) color).congr
    (fun x hx y hy => and_congr_right ?_) canvas rfl rfl
  rintro rfl
  rw [InDisc, ← le_sub_iff_add_le, hspan]
  omega

theorem Canvas.fillCircle_paints (hfits : CircleFits h cx cy radius) (color : UInt32) :
    Paints w h color (fillCircle · cx cy radius color) (InDisc cx cy radius) := by
  rintro canvas rfl rfl
  obtain ⟨hheight, ⟨hcx, hcy⟩, hnonneg, hsquare, hright, hbottom⟩ := id hfits
  simp only [fillCircle, isize_of ((mul_self_nonneg radius).trans' (by decide)) hsquare,
    isize_of (show -2 ^ 63 ≤ cy - radius by omega) (by omega),
    isize_of (show -2 ^ 63 ≤ cy + radius by omega) (by omega),
    isize_of (show -2 ^ 63 ≤ cy + radius + 1 by omega) hbottom, asIsize_of_lt hheight,
    Option.bind_eq_bind, Option.bind_some]
  rw [asUsize_of_nonneg (by omega) (by omega), asUsize_of_nonneg (by omega) (by omega)]
  refine (Paints.forRange (fun py x y => y = py ∧ InDisc cx cy radius x y) fun py _ _ => ?_).congr
    (fun x _ y _ => ⟨?_, fun hdisc => ?_⟩) canvas rfl rfl
  · exact fillCircleRow_paints hfits (by omega) ((mul_self_le_iff hnonneg).mpr (by omega)) color
  · rintro ⟨py, -, -, rfl, hdisc⟩
    exact hdisc
  · have hdy := (mul_self_le_iff hnonneg).mp
      ((le_add_of_nonneg_left (mul_self_nonneg _)).trans hdisc)
    exact ⟨y, by omega, by omega, rfl, hdisc⟩

theorem fillCircle_paints_disc (canvas : Canvas) (cx cy radius : Int) (color : UInt32)
    (hfits : CircleFits canvas.height cx cy radius) :
    ∃ canvas', canvas.fillCircle cx cy radius color = some canvas' ∧
      canvas'.width = canvas.width ∧ canvas'.height = canvas.height ∧
      ∀ px < canvas.width, ∀ py < canvas.height, canvas'.pixel px py =
        if (px - cx) ^ 2 + (py - cy) ^ 2 ≤ radius ^ 2 then some color else canvas.pixel px py := by
  obtain ⟨canvas', hrun, hwidth, hheight, hpixels⟩ :=
    Canvas.fillCircle_paints hfits color canvas rfl rfl
  refine ⟨canvas', hrun, hwidth, hheight, fun px hpx py hpy => ?_⟩
  simp only [sq]
  rcases hpixels px hpx py hpy with ⟨hin, hpixel⟩ | ⟨hout, hpixel⟩
  · rw [hpixel]
    exact (if_pos hin).symm
  · rw [hpixel]
    exact (if_neg hout).symm

/-- A disc over the right border of a canvas. -/
theorem fillCircle_paints_disc_clipped :
    let canvas : Canvas := ⟨2, 1, [7, 7], rfl, by decide⟩
    ∃ canvas', canvas.fillCircle 2 0 1 9 = some canvas' ∧ canvas'.width = 2 ∧ canvas'.height = 1 ∧
      ∀ px < 2, ∀ py < 1, canvas'.pixel px py =
        if ((px : Int) - 2) ^ 2 + (py - 0) ^ 2 ≤ 1 ^ 2 then some 9 else canvas.pixel px py :=
  fillCircle_paints_disc _ 2 0 1 9
    ⟨by decide, by decide, by decide, by decide, by decide, by decide⟩

end Circle

end AuraOS.Framebuffer
