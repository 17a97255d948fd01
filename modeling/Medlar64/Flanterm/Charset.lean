import Mathlib.Data.List.Basic
import Mathlib.Data.Prod.Basic
import Mathlib.Tactic.Common

/-!
# Flanterm: characters and colours

The tables of `flanterm.c`: `unicode_to_cp437`, the characters of
`dec_special_print` and `col256`.

* `unicodeToCp437`, `decSpecialChar` — the character of the font that stands for
  a code point, and for a byte of the DEC special character set.
* `col256_length` — there is a colour for every number from 16 to 255.
-/

namespace Flanterm

/-- A character constant. -/
def byte (c : Char) : BitVec 8 := BitVec.ofNat 8 c.toNat

/-- The cases of `unicode_to_cp437`. -/
def cp437 : List (Nat × Nat) := [
  (0x263a, 1), (0x263b, 2), (0x2665, 3), (0x2666, 4), (0x2663, 5), (0x2660, 6), (0x2022, 7),
  (0x25d8, 8), (0x25cb, 9), (0x25d9, 10), (0x2642, 11), (0x2640, 12), (0x266a, 13),
  (0x266b, 14), (0x263c, 15), (0x25ba, 16), (0x25c4, 17), (0x2195, 18), (0x203c, 19),
  (0x00b6, 20), (0x00a7, 21), (0x25ac, 22), (0x21a8, 23), (0x2191, 24), (0x2193, 25),
  (0x2192, 26), (0x2190, 27), (0x221f, 28), (0x2194, 29), (0x25b2, 30), (0x25bc, 31),
  (0x2302, 127), (0x00c7, 128), (0x00fc, 129), (0x00e9, 130), (0x00e2, 131), (0x00e4, 132),
  (0x00e0, 133), (0x00e5, 134), (0x00e7, 135), (0x00ea, 136), (0x00eb, 137), (0x00e8, 138),
  (0x00ef, 139), (0x00ee, 140), (0x00ec, 141), (0x00c4, 142), (0x00c5, 143), (0x00c9, 144),
  (0x00e6, 145), (0x00c6, 146), (0x00f4, 147), (0x00f6, 148), (0x00f2, 149), (0x00fb, 150),
  (0x00f9, 151), (0x00ff, 152), (0x00d6, 153), (0x00dc, 154), (0x00a2, 155), (0x00a3, 156),
  (0x00a5, 157), (0x20a7, 158), (0x0192, 159), (0x00e1, 160), (0x00ed, 161), (0x00f3, 162),
  (0x00fa, 163), (0x00f1, 164), (0x00d1, 165), (0x00aa, 166), (0x00ba, 167), (0x00bf, 168),
  (0x2310, 169), (0x00ac, 170), (0x00bd, 171), (0x00bc, 172), (0x00a1, 173), (0x00ab, 174),
  (0x00bb, 175), (0x2591, 176), (0x2592, 177), (0x2593, 178), (0x2502, 179), (0x2524, 180),
  (0x2561, 181), (0x2562, 182), (0x2556, 183), (0x2555, 184), (0x2563, 185), (0x2551, 186),
  (0x2557, 187), (0x255d, 188), (0x255c, 189), (0x255b, 190), (0x2510, 191), (0x2514, 192),
  (0x2534, 193), (0x252c, 194), (0x251c, 195), (0x2500, 196), (0x253c, 197), (0x255e, 198),
  (0x255f, 199), (0x255a, 200), (0x2554, 201), (0x2569, 202), (0x2566, 203), (0x2560, 204),
  (0x2550, 205), (0x256c, 206), (0x2567, 207), (0x2568, 208), (0x2564, 209), (0x2565, 210),
  (0x2559, 211), (0x2558, 212), (0x2552, 213), (0x2553, 214), (0x256b, 215), (0x256a, 216),
  (0x2518, 217), (0x250c, 218), (0x2588, 219), (0x2584, 220), (0x258c, 221), (0x2590, 222),
  (0x2580, 223), (0x03b1, 224), (0x00df, 225), (0x0393, 226), (0x03c0, 227), (0x03a3, 228),
  (0x03c3, 229), (0x00b5, 230), (0x03c4, 231), (0x03a6, 232), (0x0398, 233), (0x03a9, 234),
  (0x03b4, 235), (0x221e, 236), (0x03c6, 237), (0x03b5, 238), (0x2229, 239), (0x2261, 240),
  (0x00b1, 241), (0x2265, 242), (0x2264, 243), (0x2320, 244), (0x2321, 245), (0x00f7, 246),
  (0x2248, 247), (0x00b0, 248), (0x2219, 249), (0x00b7, 250), (0x221a, 251), (0x207f, 252),
  (0x00b2, 253), (0x25a0, 254)]

/-- `unicode_to_cp437`; `none` stands for -1. -/
def unicodeToCp437 (codePoint : Nat) : Option (BitVec 8) :=
  (cp437.lookup codePoint).map (BitVec.ofNat 8)

/-- The cases of `dec_special_print`; the first one is the backquote. -/
def decSpecial : List (BitVec 8 × BitVec 8) := [
  (0x60, 0x04), (byte '0', 0xdb), (byte '-', 0x18), (byte ',', 0x1b), (byte '.', 0x19),
  (byte 'a', 0xb1), (byte 'f', 0xf8), (byte 'g', 0xf1), (byte 'h', 0xb0), (byte 'j', 0xd9),
  (byte 'k', 0xbf), (byte 'l', 0xda), (byte 'm', 0xc0), (byte 'n', 0xc5), (byte 'q', 0xc4),
  (byte 's', 0x5f), (byte 't', 0xc3), (byte 'u', 0xb4), (byte 'v', 0xc1), (byte 'w', 0xc2),
  (byte 'x', 0xb3), (byte 'y', 0xf3), (byte 'z', 0xf2), (byte '~', 0xfa), (byte '_', 0xff),
  (byte '+', 0x1a), (byte '{', 0xe3), (byte '}', 0x9c)]

/-- The character that is printed for `c` in the DEC special character set. -/
def decSpecialChar (c : BitVec 8) : Option (BitVec 8) :=
  decSpecial.lookup c

def col256 : List (BitVec 32) := [
  0x000000, 0x00005f, 0x000087, 0x0000af, 0x0000d7, 0x0000ff, 0x005f00, 0x005f5f, 0x005f87,
  0x005faf, 0x005fd7, 0x005fff, 0x008700, 0x00875f, 0x008787, 0x0087af, 0x0087d7, 0x0087ff,
  0x00af00, 0x00af5f, 0x00af87, 0x00afaf, 0x00afd7, 0x00afff, 0x00d700, 0x00d75f, 0x00d787,
  0x00d7af, 0x00d7d7, 0x00d7ff, 0x00ff00, 0x00ff5f, 0x00ff87, 0x00ffaf, 0x00ffd7, 0x00ffff,
  0x5f0000, 0x5f005f, 0x5f0087, 0x5f00af, 0x5f00d7, 0x5f00ff, 0x5f5f00, 0x5f5f5f, 0x5f5f87,
  0x5f5faf, 0x5f5fd7, 0x5f5fff, 0x5f8700, 0x5f875f, 0x5f8787, 0x5f87af, 0x5f87d7, 0x5f87ff,
  0x5faf00, 0x5faf5f, 0x5faf87, 0x5fafaf, 0x5fafd7, 0x5fafff, 0x5fd700, 0x5fd75f, 0x5fd787,
  0x5fd7af, 0x5fd7d7, 0x5fd7ff, 0x5fff00, 0x5fff5f, 0x5fff87, 0x5fffaf, 0x5fffd7, 0x5fffff,
  0x870000, 0x87005f, 0x870087, 0x8700af, 0x8700d7, 0x8700ff, 0x875f00, 0x875f5f, 0x875f87,
  0x875faf, 0x875fd7, 0x875fff, 0x878700, 0x87875f, 0x878787, 0x8787af, 0x8787d7, 0x8787ff,
  0x87af00, 0x87af5f, 0x87af87, 0x87afaf, 0x87afd7, 0x87afff, 0x87d700, 0x87d75f, 0x87d787,
  0x87d7af, 0x87d7d7, 0x87d7ff, 0x87ff00, 0x87ff5f, 0x87ff87, 0x87ffaf, 0x87ffd7, 0x87ffff,
  0xaf0000, 0xaf005f, 0xaf0087, 0xaf00af, 0xaf00d7, 0xaf00ff, 0xaf5f00, 0xaf5f5f, 0xaf5f87,
  0xaf5faf, 0xaf5fd7, 0xaf5fff, 0xaf8700, 0xaf875f, 0xaf8787, 0xaf87af, 0xaf87d7, 0xaf87ff,
  0xafaf00, 0xafaf5f, 0xafaf87, 0xafafaf, 0xafafd7, 0xafafff, 0xafd700, 0xafd75f, 0xafd787,
  0xafd7af, 0xafd7d7, 0xafd7ff, 0xafff00, 0xafff5f, 0xafff87, 0xafffaf, 0xafffd7, 0xafffff,
  0xd70000, 0xd7005f, 0xd70087, 0xd700af, 0xd700d7, 0xd700ff, 0xd75f00, 0xd75f5f, 0xd75f87,
  0xd75faf, 0xd75fd7, 0xd75fff, 0xd78700, 0xd7875f, 0xd78787, 0xd787af, 0xd787d7, 0xd787ff,
  0xd7af00, 0xd7af5f, 0xd7af87, 0xd7afaf, 0xd7afd7, 0xd7afff, 0xd7d700, 0xd7d75f, 0xd7d787,
  0xd7d7af, 0xd7d7d7, 0xd7d7ff, 0xd7ff00, 0xd7ff5f, 0xd7ff87, 0xd7ffaf, 0xd7ffd7, 0xd7ffff,
  0xff0000, 0xff005f, 0xff0087, 0xff00af, 0xff00d7, 0xff00ff, 0xff5f00, 0xff5f5f, 0xff5f87,
  0xff5faf, 0xff5fd7, 0xff5fff, 0xff8700, 0xff875f, 0xff8787, 0xff87af, 0xff87d7, 0xff87ff,
  0xffaf00, 0xffaf5f, 0xffaf87, 0xffafaf, 0xffafd7, 0xffafff, 0xffd700, 0xffd75f, 0xffd787,
  0xffd7af, 0xffd7d7, 0xffd7ff, 0xffff00, 0xffff5f, 0xffff87, 0xffffaf, 0xffffd7, 0xffffff,
  0x080808, 0x121212, 0x1c1c1c, 0x262626, 0x303030, 0x3a3a3a, 0x444444, 0x4e4e4e, 0x585858,
  0x626262, 0x6c6c6c, 0x767676, 0x808080, 0x8a8a8a, 0x949494, 0x9e9e9e, 0xa8a8a8, 0xb2b2b2,
  0xbcbcbc, 0xc6c6c6, 0xd0d0d0, 0xdadada, 0xe4e4e4, 0xeeeeee]

-- ---------------------------------------------------------------------------
-- What the tables are
-- ---------------------------------------------------------------------------

theorem col256_length : col256.length = 240 := by
  decide +kernel

end Flanterm
