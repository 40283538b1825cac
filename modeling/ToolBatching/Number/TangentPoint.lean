import ToolBatching.Number.Series

/-!
Angles near `(16 + i) / 256` at which tangent and cotangent both lie within a
thousandth of a unit in the last place of floats. Tangents of angles between them are
computed from the nearest point.
-/

namespace ToolBatching.Number

/-- How far each point lies beside its multiple of `1 / 256`, in units of `2 ^ -56`. -/
def tangentPointOffsets : Array Int :=
  #[508665184, 454717456, 621142864, -52673966, -469793633, -305571569, 15631351, -351933887,
    -603646473, -477833301, -461167801, 658850019, -21025125, 592613445, -663574487, -13485180,
    433005354, -595471824, 427893754, 456289602, -625057008, 199283874, -59087044, -619636002,
    93587994, -458867016, 653169444, -608463270, -399338688, -261511358, -81654316, 516502686,
    -569542736, 70829672, -417722708, 547223874, 310572640, -700954664, -164743130, 359958908,
    578442364, -381943396, 200024918, 686594518, 695850220, -84726918, 428255340, 61060198,
    405819080, 237064776, 347957324, 183004116, -577172732, 215485376, -67868596, -597632652,
    -67078144, -116823640, 377161580, 3621380, -260623188, -620539264, 449158732, 483802764,
    -252943556, 3623584, -288302004, -331026480, -540926172, 573366352, -548051560, 586977856,
    669652220, 493190952, 207232872, -685555832, -529020732, -372973192, 153776300, 195922656,
    355027780, -454557044, -277723388, -616015976, 199021500, 331080400, 276503976, 537999644,
    132156780, -298730464, -319451260, -674139872, 337825072, 705807408, -632576160, 168019252,
    4491076, -69629272, 638672992, -334344452, -179677060, -125016432, -382233000, -104175196,
    660185096, -326870692, 687610408, 112640384, -42978300, -453673168, -399030724, -185959320,
    -249540608, -90455200, -149418568, 57783800, -351972840, 465246016, -119322360, -130504104,
    401009952, 242256384, 646421160, 131621968, 326665624, -397686848, -324788136, -556731128,
    -456873576, 157051184, 665236856, -435953968, 560771528, 502353152, -716638064, -196983672,
    -197613224, -32687864, -75162736, 565658032, -436948472, -38357424, 614104928, 531528696,
    692082376, 620223272, 28206512, 430127288, 402729896, 719297544, 644908824, 191039240,
    -55347120, 62338904, 512322008, -415247256, 428712784, -526113680, -605643608, 7234048,
    394172384, -171948976, 127815728, -185198688, 513919792, -709641192, -441254840, -491762360,
    -495485904, 40682904, -525696088, 616960024, -118312528, 288793296, 310717776, 605536624,
    271057392, -540237688, 306650392, 170789560, 288460232, 586924352, -30132616, -332257744,
    -227292744, 564734200]

/-- A point of the table with its tangent and cotangent, to the nearest floats. -/
structure TangentPoint where
  angle : Float
  tangent : Float
  cotangent : Float

namespace TangentPoint

/-- A point in units of `2 ^ -56`. -/
def scaledAngle (i : Nat) : Nat :=
  ((16 + i) * 0x1000000000000 + tangentPointOffsets.getD i 0).toNat

/-- The point with an index. Tangent and cotangent are so near floats that 128 fraction
bits of sine and cosine tell which. -/
def ofIndex (i : Nat) : TangentPoint :=
  let angle := scaledAngle i
  let (sine, cosine) := scaledSineCosine 128 (angle * Nat.pow 2 72)
  { angle := ofQuotient angle (Nat.pow 2 56)
    tangent := ofQuotient sine.toNat cosine.toNat
    cotangent := ofQuotient cosine.toNat sine.toNat }

end TangentPoint

end ToolBatching.Number
