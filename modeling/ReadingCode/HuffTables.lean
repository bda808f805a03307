/-
# The HPACK Huffman tables

The tables of `ngx_http_v2_huff_encode.c` and `ngx_http_v2_huff_decode.c`.  A row of the
decoding table is written as one number, with five digits for each entry: two for `next`,
one for `emit + 2 * ending` (both are 0 or 1), and two for `sym`.

`statePrefixes` is not in the source: it says for every state of the decoder which bits
have been read of a code that is not complete.  `decodeCodes_check` evaluates what makes
it right, for every state and every four bits.
-/
import ReadingCode.BitString

namespace Huff

/-! ## The tables -/

/-- `ngx_http_v2_huff_encode_table`: code and length. -/
@[irreducible] def ngxHttpV2HuffEncodeTable : List (ℕ × ℕ) :=
  [(0x1ff8, 13), (0x7fffd8, 23), (0xfffffe2, 28), (0xfffffe3, 28), (0xfffffe4, 28), (0xfffffe5, 28),
    (0xfffffe6, 28), (0xfffffe7, 28), (0xfffffe8, 28), (0xffffea, 24), (0x3ffffffc, 30),
    (0xfffffe9, 28), (0xfffffea, 28), (0x3ffffffd, 30), (0xfffffeb, 28), (0xfffffec, 28),
    (0xfffffed, 28), (0xfffffee, 28), (0xfffffef, 28), (0xffffff0, 28), (0xffffff1, 28),
    (0xffffff2, 28), (0x3ffffffe, 30), (0xffffff3, 28), (0xffffff4, 28), (0xffffff5, 28),
    (0xffffff6, 28), (0xffffff7, 28), (0xffffff8, 28), (0xffffff9, 28), (0xffffffa, 28),
    (0xffffffb, 28), (0x14, 6), (0x3f8, 10), (0x3f9, 10), (0xffa, 12), (0x1ff9, 13), (0x15, 6),
    (0xf8, 8), (0x7fa, 11), (0x3fa, 10), (0x3fb, 10), (0xf9, 8), (0x7fb, 11), (0xfa, 8), (0x16, 6),
    (0x17, 6), (0x18, 6), (0x0, 5), (0x1, 5), (0x2, 5), (0x19, 6), (0x1a, 6), (0x1b, 6), (0x1c, 6),
    (0x1d, 6), (0x1e, 6), (0x1f, 6), (0x5c, 7), (0xfb, 8), (0x7ffc, 15), (0x20, 6), (0xffb, 12),
    (0x3fc, 10), (0x1ffa, 13), (0x21, 6), (0x5d, 7), (0x5e, 7), (0x5f, 7), (0x60, 7), (0x61, 7),
    (0x62, 7), (0x63, 7), (0x64, 7), (0x65, 7), (0x66, 7), (0x67, 7), (0x68, 7), (0x69, 7),
    (0x6a, 7), (0x6b, 7), (0x6c, 7), (0x6d, 7), (0x6e, 7), (0x6f, 7), (0x70, 7), (0x71, 7),
    (0x72, 7), (0xfc, 8), (0x73, 7), (0xfd, 8), (0x1ffb, 13), (0x7fff0, 19), (0x1ffc, 13),
    (0x3ffc, 14), (0x22, 6), (0x7ffd, 15), (0x3, 5), (0x23, 6), (0x4, 5), (0x24, 6), (0x5, 5),
    (0x25, 6), (0x26, 6), (0x27, 6), (0x6, 5), (0x74, 7), (0x75, 7), (0x28, 6), (0x29, 6),
    (0x2a, 6), (0x7, 5), (0x2b, 6), (0x76, 7), (0x2c, 6), (0x8, 5), (0x9, 5), (0x2d, 6), (0x77, 7),
    (0x78, 7), (0x79, 7), (0x7a, 7), (0x7b, 7), (0x7ffe, 15), (0x7fc, 11), (0x3ffd, 14),
    (0x1ffd, 13), (0xffffffc, 28), (0xfffe6, 20), (0x3fffd2, 22), (0xfffe7, 20), (0xfffe8, 20),
    (0x3fffd3, 22), (0x3fffd4, 22), (0x3fffd5, 22), (0x7fffd9, 23), (0x3fffd6, 22), (0x7fffda, 23),
    (0x7fffdb, 23), (0x7fffdc, 23), (0x7fffdd, 23), (0x7fffde, 23), (0xffffeb, 24), (0x7fffdf, 23),
    (0xffffec, 24), (0xffffed, 24), (0x3fffd7, 22), (0x7fffe0, 23), (0xffffee, 24), (0x7fffe1, 23),
    (0x7fffe2, 23), (0x7fffe3, 23), (0x7fffe4, 23), (0x1fffdc, 21), (0x3fffd8, 22), (0x7fffe5, 23),
    (0x3fffd9, 22), (0x7fffe6, 23), (0x7fffe7, 23), (0xffffef, 24), (0x3fffda, 22), (0x1fffdd, 21),
    (0xfffe9, 20), (0x3fffdb, 22), (0x3fffdc, 22), (0x7fffe8, 23), (0x7fffe9, 23), (0x1fffde, 21),
    (0x7fffea, 23), (0x3fffdd, 22), (0x3fffde, 22), (0xfffff0, 24), (0x1fffdf, 21), (0x3fffdf, 22),
    (0x7fffeb, 23), (0x7fffec, 23), (0x1fffe0, 21), (0x1fffe1, 21), (0x3fffe0, 22), (0x1fffe2, 21),
    (0x7fffed, 23), (0x3fffe1, 22), (0x7fffee, 23), (0x7fffef, 23), (0xfffea, 20), (0x3fffe2, 22),
    (0x3fffe3, 22), (0x3fffe4, 22), (0x7ffff0, 23), (0x3fffe5, 22), (0x3fffe6, 22), (0x7ffff1, 23),
    (0x3ffffe0, 26), (0x3ffffe1, 26), (0xfffeb, 20), (0x7fff1, 19), (0x3fffe7, 22), (0x7ffff2, 23),
    (0x3fffe8, 22), (0x1ffffec, 25), (0x3ffffe2, 26), (0x3ffffe3, 26), (0x3ffffe4, 26),
    (0x7ffffde, 27), (0x7ffffdf, 27), (0x3ffffe5, 26), (0xfffff1, 24), (0x1ffffed, 25),
    (0x7fff2, 19), (0x1fffe3, 21), (0x3ffffe6, 26), (0x7ffffe0, 27), (0x7ffffe1, 27),
    (0x3ffffe7, 26), (0x7ffffe2, 27), (0xfffff2, 24), (0x1fffe4, 21), (0x1fffe5, 21),
    (0x3ffffe8, 26), (0x3ffffe9, 26), (0xffffffd, 28), (0x7ffffe3, 27), (0x7ffffe4, 27),
    (0x7ffffe5, 27), (0xfffec, 20), (0xfffff3, 24), (0xfffed, 20), (0x1fffe6, 21), (0x3fffe9, 22),
    (0x1fffe7, 21), (0x1fffe8, 21), (0x7ffff3, 23), (0x3fffea, 22), (0x3fffeb, 22), (0x1ffffee, 25),
    (0x1ffffef, 25), (0xfffff4, 24), (0xfffff5, 24), (0x3ffffea, 26), (0x7ffff4, 23),
    (0x3ffffeb, 26), (0x7ffffe6, 27), (0x3ffffec, 26), (0x3ffffed, 26), (0x7ffffe7, 27),
    (0x7ffffe8, 27), (0x7ffffe9, 27), (0x7ffffea, 27), (0x7ffffeb, 27), (0xffffffe, 28),
    (0x7ffffec, 27), (0x7ffffed, 27), (0x7ffffee, 27), (0x7ffffef, 27), (0x7fffff0, 27),
    (0x3ffffee, 26)]

/-- `ngx_http_v2_huff_encode_table_lc`: the rows of the capital letters are those of the small ones,
all others are the same. -/
@[irreducible] def ngxHttpV2HuffEncodeTableLc : List (ℕ × ℕ) :=
  ngxHttpV2HuffEncodeTable.take 65 ++ (ngxHttpV2HuffEncodeTable.drop 97).take 26 ++
    ngxHttpV2HuffEncodeTable.drop 91

/-- `ngx_http_v2_huff_decode_codes`, a number for each row. -/
@[irreducible] def ngxHttpV2HuffDecodeCodes : List ℕ :=
  [0x040000500007000080000b0000c0001000013000190001c00020000230002a000310003900040200,
    0x003300033100332003610036300365003690036f00373003740d0000e00011000120001400015000,
    0x01130163300113116331011321633201161163610116316363011651636501169163690116f1636f,
    0x02130091301713028330021310913117131283310213209132171322833202161091611716128361,
    0x03130061300a1300f130181301f130291303833003131061310a1310f131181311f1312913138331,
    0x03132061320a1320f132181321f132291323833203161061610a1610f161181611f1612916138361,
    0x0216309163171632836302165091651716528365021690916917169283690216f0916f1716f2836f,
    0x03163061630a1630f163181631f163291633836303165061650a1650f165181651f1652916538365,
    0x03169061690a1690f169181691f16929169383690316f0616f0a16f0f16f1816f1f16f2916f3836f,
    0x0117316373011741637400320003250032d0032e0032f00333003340033500336003370033800339,
    0x0217309173171732837302174091741717428374011201632001125163250112d1632d0112e1632e,
    0x03173061730a1730f173181731f173291733837303174061740a1740f174181741f1742917438374,
    0x02120091201712028320021250912517125283250212d0912d1712d2832d0212e0912e1712e2832e,
    0x03120061200a1200f120181201f120291203832003125061250a1250f125181251f1252912538325,
    0x0312d0612d0a12d0f12d1812d1f12d2912d3832d0312e0612e0a12e0f12e1812e1f12e2912e3832e,
    0x0112f1632f0113316333011341633401135163350113616336011371633701138163380113916339,
    0x0212f0912f1712f2832f021330913317133283330213409134171342833402135091351713528335,
    0x0312f0612f0a12f0f12f1812f1f12f2912f3832f03133061330a1330f133181331f1332913338333,
    0x03134061340a1340f134181341f134291343833403135061350a1350f135181351f1352913538335,
    0x02136091361713628336021370913717137283370213809138171382833802139091391713928339,
    0x03136061360a1360f136181361f136291363833603137061370a1370f137181371f1372913738337,
    0x03138061380a1380f138181381f138291383833803139061390a1390f139181391f1392913938339,
    0x1a0001b0001d0001e000210002200024000250002b0002e00032000350003a0003d0004100044200,
    0x0033d003410035f00362003640036600367003680036c0036d0036e0037000372003752600027000,
    0x0113d1633d01141163410115f1635f01162163620116416364011661636601167163670116816368,
    0x0213d0913d1713d2833d021410914117141283410215f0915f1715f2835f02162091621716228362,
    0x0313d0613d0a13d0f13d1813d1f13d2913d3833d03141061410a1410f141181411f1412914138341,
    0x0315f0615f0a15f0f15f1815f1f15f2915f3835f03162061620a1620f162181621f1622916238362,
    0x02164091641716428364021660916617166283660216709167171672836702168091681716828368,
    0x03164061640a1640f164181641f164291643836403166061660a1660f166181661f1662916638366,
    0x03167061670a1670f167181671f167291673836703168061680a1680f168181681f1682916838368,
    0x0116c1636c0116d1636d0116e1636e0117016370011721637201175163750033a003420034300344,
    0x0216c0916c1716c2836c0216d0916d1716d2836d0216e0916e1716e2836e02170091701717028370,
    0x0316c0616c0a16c0f16c1816c1f16c2916c3836c0316d0616d0a16d0f16d1816d1f16d2916d3836d,
    0x0316e0616e0a16e0f16e1816e1f16e2916e3836e03170061700a1700f170181701f1702917038370,
    0x02172091721717228372021750917517175283750113a1633a011421634201143163430114416344,
    0x03172061720a1720f172181721f172291723837203175061750a1750f175181751f1752917538375,
    0x0213a0913a1713a2833a021420914217142283420214309143171432834302144091441714428344,
    0x0313a0613a0a13a0f13a1813a1f13a2913a3833a03142061420a1420f142181421f1422914238342,
    0x03143061430a1430f143181431f143291433834303144061440a1440f144181441f1442914438344,
    0x2c0002d0002f00030000330003400036000370003b0003c0003e0003f00042000430004500048200,
    0x00345003460034700348003490034a0034b0034c0034d0034e0034f0035000351003520035300354,
    0x011451634501146163460114716347011481634801149163490114a1634a0114b1634b0114c1634c,
    0x02145091451714528345021460914617146283460214709147171472834702148091481714828348,
    0x03145061450a1450f145181451f145291453834503146061460a1460f146181461f1462914638346,
    0x03147061470a1470f147181471f147291473834703148061480a1480f148181481f1482914838348,
    0x021490914917149283490214a0914a1714a2834a0214b0914b1714b2834b0214c0914c1714c2834c,
    0x03149061490a1490f149181491f14929149383490314a0614a0a14a0f14a1814a1f14a2914a3834a,
    0x0314b0614b0a14b0f14b1814b1f14b2914b3834b0314c0614c0a14c0f14c1814c1f14c2914c3834c,
    0x0114d1634d0114e1634e0114f1634f01150163500115116351011521635201153163530115416354,
    0x0214d0914d1714d2834d0214e0914e1714e2834e0214f0914f1714f2834f02150091501715028350,
    0x0314d0614d0a14d0f14d1814d1f14d2914d3834d0314e0614e0a14e0f14e1814e1f14e2914e3834e,
    0x0314f0614f0a14f0f14f1814f1f14f2914f3834f03150061500a1500f150181501f1502915038350,
    0x02151091511715128351021520915217152283520215309153171532835302154091541715428354,
    0x03151061510a1510f151181511f151291513835103152061520a1520f152181521f1522915238352,
    0x03153061530a1530f153181531f153291533835303154061540a1540f154181541f1542915438354,
    0x003550035600357003590036a0036b00371003760037700378003790037a4600047000490004a200,
    0x01155163550115616356011571635701159163590116a1636a0116b1636b01171163710117616376,
    0x02155091551715528355021560915617156283560215709157171572835702159091591715928359,
    0x03155061550a1550f155181551f155291553835503156061560a1560f156181561f1562915638356,
    0x03157061570a1570f157181571f157291573835703159061590a1590f159181591f1592915938359,
    0x0216a0916a1716a2836a0216b0916b1716b2836b0217109171171712837102176091761717628376,
    0x0316a0616a0a16a0f16a1816a1f16a2916a3836a0316b0616b0a16b0f16b1816b1f16b2916b3836b,
    0x03171061710a1710f171181711f171291713837103176061760a1760f176181761f1762917638376,
    0x0117716377011781637801179163790117a1637a003260032a0032c0033b003580035a4b0004e200,
    0x0217709177171772837702178091781717828378021790917917179283790217a0917a1717a2837a,
    0x03177061770a1770f177181771f177291773837703178061780a1780f178181781f1782917838378,
    0x03179061790a1790f179181791f17929179383790317a0617a0a17a0f17a1817a1f17a2917a3837a,
    0x01126163260112a1632a0112c1632c0113b1633b01158163580115a1635a4c0004d0004f00051200,
    0x021260912617126283260212a0912a1712a2832a0212c0912c1712c2832c0213b0913b1713b2833b,
    0x03126061260a1260f126181261f12629126383260312a0612a0a12a0f12a1812a1f12a2912a3832a,
    0x0312c0612c0a12c0f12c1812c1f12c2912c3832c0313b0613b0a13b0f13b1813b1f13b2913b3833b,
    0x021580915817158283580215a0915a1715a2835a003210032200328003290033f500005200054200,
    0x03158061580a1580f158181581f15829158383580315a0615a0a15a0f15a1815a1f15a2915a3835a,
    0x01121163210112216322011281632801129163290113f1633f003270032b0037c530005500058200,
    0x02121091211712128321021220912217122283220212809128171282832802129091291712928329,
    0x03121061210a1210f121181211f121291213832103122061220a1220f122181221f1222912238322,
    0x03128061280a1280f128181281f128291283832803129061290a1290f129181291f1292912938329,
    0x0213f0913f1713f2833f01127163270112b1632b0117c1637c003230033e5600057000590005a200,
    0x0313f0613f0a13f0f13f1813f1f13f2913f3833f021270912717127283270212b0912b1712b2832b,
    0x03127061270a1270f127181271f12729127383270312b0612b0a12b0f12b1812b1f12b2912b3832b,
    0x0217c0917c1717c2837c01123163230113e1633e0030000324003400035b0035d0037e5b0005c200,
    0x0317c0617c0a17c0f17c1817c1f17c2917c3837c021230912317123283230213e0913e1713e2833e,
    0x03123061230a1230f123181231f12329123383230313e0613e0a13e0f13e1813e1f13e2913e3833e,
    0x0110016300011241632401140163400115b1635b0115d1635d0117e1637e0035e0037d5d0005e200,
    0x0210009100171002830002124091241712428324021400914017140283400215b0915b1715b2835b,
    0x03100061000a1000f100181001f100291003830003124061240a1240f124181241f1242912438324,
    0x03140061400a1400f140181401f14029140383400315b0615b0a15b0f15b1815b1f15b2915b3835b,
    0x0215d0915d1715d2835d0217e0917e1717e2837e0115e1635e0117d1637d0033c003600037b5f200,
    0x0315d0615d0a15d0f15d1815d1f15d2915d3835d0317e0617e0a17e0f17e1817e1f17e2917e3837e,
    0x0215e0915e1715e2835e0217d0917d1717d2837d0113c1633c01160163600117b1637b600006e200,
    0x0315e0615e0a15e0f15e1815e1f15e2915e3835e0317d0617d0a17d0f17d1817d1f17d2917d3837d,
    0x0213c0913c1713c2833c021600916017160283600217b0917b1717b2837b61000650006f00085200,
    0x0313c0613c0a13c0f13c1813c1f13c2913c3833c03160061600a1600f160181601f1602916038360,
    0x0317b0617b0a17b0f17b1817b1f17b2917b3837b6200063000660006900070000770008600099200,
    0x0035c003c3003d06400067000680006a0006b0007100074000780007e000870008e0009a000a9200,
    0x0115c1635c011c3163c3011d0163d0003800038200383003a2003b8003c2003e0003e26c0006d000,
    0x0215c0915c1715c2835c021c3091c3171c3283c3021d0091d0171d0283d001180163800118216382,
    0x0315c0615c0a15c0f15c1815c1f15c2915c3835c031c3061c30a1c30f1c3181c31f1c3291c3383c3,
    0x031d0061d00a1d00f1d0181d01f1d0291d0383d00218009180171802838002182091821718228382,
    0x03180061800a1800f180181801f180291803838003182061820a1820f182181821f1822918238382,
    0x0118316383011a2163a2011b8163b8011c2163c2011e0163e0011e2163e200399003a1003a7003ac,
    0x02183091831718328383021a2091a2171a2283a2021b8091b8171b8283b8021c2091c2171c2283c2,
    0x03183061830a1830f183181831f1832918338383031a2061a20a1a20f1a2181a21f1a2291a2383a2,
    0x031b8061b80a1b80f1b8181b81f1b8291b8383b8031c2061c20a1c20f1c2181c21f1c2291c2383c2,
    0x021e0091e0171e0283e0021e2091e2171e2283e20119916399011a1163a1011a7163a7011ac163ac,
    0x031e0061e00a1e00f1e0181e01f1e0291e0383e0031e2061e20a1e20f1e2181e21f1e2291e2383e2,
    0x02199091991719928399021a1091a1171a1283a1021a7091a7171a7283a7021ac091ac171ac283ac,
    0x03199061990a1990f199181991f1992919938399031a1061a10a1a10f1a1181a11f1a1291a1383a1,
    0x031a7061a70a1a70f1a7181a71f1a7291a7383a7031ac061ac0a1ac0f1ac181ac1f1ac291ac383ac,
    0x72000730007500076000790007b0007f00082000880008b0008f000920009b000a2000aa000b4200,
    0x003b0003b1003b3003d1003d8003d9003e3003e5003e67a0007c0007d00080000810008300084000,
    0x011b0163b0011b1163b1011b3163b3011d1163d1011d8163d8011d9163d9011e3163e3011e5163e5,
    0x021b0091b0171b0283b0021b1091b1171b1283b1021b3091b3171b3283b3021d1091d1171d1283d1,
    0x031b0061b00a1b00f1b0181b01f1b0291b0383b0031b1061b10a1b10f1b1181b11f1b1291b1383b1,
    0x031b3061b30a1b30f1b3181b31f1b3291b3383b3031d1061d10a1d10f1d1181d11f1d1291d1383d1,
    0x021d8091d8171d8283d8021d9091d9171d9283d9021e3091e3171e3283e3021e5091e5171e5283e5,
    0x031d8061d80a1d80f1d8181d81f1d8291d8383d8031d9061d90a1d90f1d9181d91f1d9291d9383d9,
    0x031e3061e30a1e30f1e3181e31f1e3291e3383e3031e5061e50a1e50f1e5181e51f1e5291e5383e5,
    0x011e6163e60038100384003850038600388003920039a0039c003a0003a3003a4003a9003aa003ad,
    0x021e6091e6171e6283e6011811638101184163840118516385011861638601188163880119216392,
    0x031e6061e60a1e60f1e6181e61f1e6291e6383e60218109181171812838102184091841718428384,
    0x03181061810a1810f181181811f181291813838103184061840a1840f184181841f1842918438384,
    0x02185091851718528385021860918617186283860218809188171882838802192091921719228392,
    0x03185061850a1850f185181851f185291853838503186061860a1860f186181861f1862918638386,
    0x03188061880a1880f188181881f188291883838803192061920a1920f192181921f1922919238392,
    0x0119a1639a0119c1639c011a0163a0011a3163a3011a4163a4011a9163a9011aa163aa011ad163ad,
    0x0219a0919a1719a2839a0219c0919c1719c2839c021a0091a0171a0283a0021a3091a3171a3283a3,
    0x0319a0619a0a19a0f19a1819a1f19a2919a3839a0319c0619c0a19c0f19c1819c1f19c2919c3839c,
    0x031a0061a00a1a00f1a0181a01f1a0291a0383a0031a3061a30a1a30f1a3181a31f1a3291a3383a3,
    0x021a4091a4171a4283a4021a9091a9171a9283a9021aa091aa171aa283aa021ad091ad171ad283ad,
    0x031a4061a40a1a40f1a4181a41f1a4291a4383a4031a9061a90a1a90f1a9181a91f1a9291a9383a9,
    0x031aa061aa0a1aa0f1aa181aa1f1aa291aa383aa031ad061ad0a1ad0f1ad181ad1f1ad291ad383ad,
    0x890008a0008c0008d000900009100093000960009c0009f000a3000a6000ab000ae000b5000be200,
    0x003b2003b5003b9003ba003bb003bd003be003c4003c6003e4003e8003e994000950009700098000,
    0x011b2163b2011b5163b5011b9163b9011ba163ba011bb163bb011bd163bd011be163be011c4163c4,
    0x021b2091b2171b2283b2021b5091b5171b5283b5021b9091b9171b9283b9021ba091ba171ba283ba,
    0x031b2061b20a1b20f1b2181b21f1b2291b2383b2031b5061b50a1b50f1b5181b51f1b5291b5383b5,
    0x031b9061b90a1b90f1b9181b91f1b9291b9383b9031ba061ba0a1ba0f1ba181ba1f1ba291ba383ba,
    0x021bb091bb171bb283bb021bd091bd171bd283bd021be091be171be283be021c4091c4171c4283c4,
    0x031bb061bb0a1bb0f1bb181bb1f1bb291bb383bb031bd061bd0a1bd0f1bd181bd1f1bd291bd383bd,
    0x031be061be0a1be0f1be181be1f1be291be383be031c4061c40a1c40f1c4181c41f1c4291c4383c4,
    0x011c6163c6011e4163e4011e8163e8011e9163e90030100387003890038a0038b0038c0038d0038f,
    0x021c6091c6171c6283c6021e4091e4171e4283e4021e8091e8171e8283e8021e9091e9171e9283e9,
    0x031c6061c60a1c60f1c6181c61f1c6291c6383c6031e4061e40a1e40f1e4181e41f1e4291e4383e4,
    0x031e8061e80a1e80f1e8181e81f1e8291e8383e8031e9061e90a1e90f1e9181e91f1e9291e9383e9,
    0x0110116301011871638701189163890118a1638a0118b1638b0118c1638c0118d1638d0118f1638f,
    0x0210109101171012830102187091871718728387021890918917189283890218a0918a1718a2838a,
    0x03101061010a1010f101181011f101291013830103187061870a1870f187181871f1872918738387,
    0x03189061890a1890f189181891f18929189383890318a0618a0a18a0f18a1818a1f18a2918a3838a,
    0x0218b0918b1718b2838b0218c0918c1718c2838c0218d0918d1718d2838d0218f0918f1718f2838f,
    0x0318b0618b0a18b0f18b1818b1f18b2918b3838b0318c0618c0a18c0f18c1818c1f18c2918c3838c,
    0x0318d0618d0a18d0f18d1818d1f18d2918d3838d0318f0618f0a18f0f18f1818f1f18f2918f3838f,
    0x9d0009e000a0000a1000a4000a5000a7000a8000ac000ad000af000b1000b6000b9000bf000cf200,
    0x00393003950039600397003980039b0039d0039e003a5003a6003a8003ae003af003b4003b6003b7,
    0x011931639301195163950119616396011971639701198163980119b1639b0119d1639d0119e1639e,
    0x02193091931719328393021950919517195283950219609196171962839602197091971719728397,
    0x03193061930a1930f193181931f193291933839303195061950a1950f195181951f1952919538395,
    0x03196061960a1960f196181961f196291963839603197061970a1970f197181971f1972919738397,
    0x021980919817198283980219b0919b1719b2839b0219d0919d1719d2839d0219e0919e1719e2839e,
    0x03198061980a1980f198181981f19829198383980319b0619b0a19b0f19b1819b1f19b2919b3839b,
    0x0319d0619d0a19d0f19d1819d1f19d2919d3839d0319e0619e0a19e0f19e1819e1f19e2919e3839e,
    0x011a5163a5011a6163a6011a8163a8011ae163ae011af163af011b4163b4011b6163b6011b7163b7,
    0x021a5091a5171a5283a5021a6091a6171a6283a6021a8091a8171a8283a8021ae091ae171ae283ae,
    0x031a5061a50a1a50f1a5181a51f1a5291a5383a5031a6061a60a1a60f1a6181a61f1a6291a6383a6,
    0x031a8061a80a1a80f1a8181a81f1a8291a8383a8031ae061ae0a1ae0f1ae181ae1f1ae291ae383ae,
    0x021af091af171af283af021b4091b4171b4283b4021b6091b6171b6283b6021b7091b7171b7283b7,
    0x031af061af0a1af0f1af181af1f1af291af383af031b4061b40a1b40f1b4181b41f1b4291b4383b4,
    0x031b6061b60a1b60f1b6181b61f1b6291b6383b6031b7061b70a1b70f1b7181b71f1b7291b7383b7,
    0x003bc003bf003c5003e7003efb0000b2000b3000b7000b8000ba000bb000c0000c7000d0000df200,
    0x011bc163bc011bf163bf011c5163c5011e7163e7011ef163ef003090038e0039000391003940039f,
    0x021bc091bc171bc283bc021bf091bf171bf283bf021c5091c5171c5283c5021e7091e7171e7283e7,
    0x031bc061bc0a1bc0f1bc181bc1f1bc291bc383bc031bf061bf0a1bf0f1bf181bf1f1bf291bf383bf,
    0x031c5061c50a1c50f1c5181c51f1c5291c5383c5031e7061e70a1e70f1e7181e71f1e7291e7383e7,
    0x021ef091ef171ef283ef01109163090118e1638e0119016390011911639101194163940119f1639f,
    0x031ef061ef0a1ef0f1ef181ef1f1ef291ef383ef021090910917109283090218e0918e1718e2838e,
    0x03109061090a1090f109181091f10929109383090318e0618e0a18e0f18e1818e1f18e2918e3838e,
    0x0219009190171902839002191091911719128391021940919417194283940219f0919f1719f2839f,
    0x03190061900a1900f190181901f190291903839003191061910a1910f191181911f1912919138391,
    0x03194061940a1940f194181941f19429194383940319f0619f0a19f0f19f1819f1f19f2919f3839f,
    0x003ab003ce003d7003e1003ec003edbc000bd000c1000c4000c8000cb000d1000d8000e0000ee200,
    0x011ab163ab011ce163ce011d7163d7011e1163e1011ec163ec011ed163ed003c7003cf003ea003eb,
    0x021ab091ab171ab283ab021ce091ce171ce283ce021d7091d7171d7283d7021e1091e1171e1283e1,
    0x031ab061ab0a1ab0f1ab181ab1f1ab291ab383ab031ce061ce0a1ce0f1ce181ce1f1ce291ce383ce,
    0x031d7061d70a1d70f1d7181d71f1d7291d7383d7031e1061e10a1e10f1e1181e11f1e1291e1383e1,
    0x021ec091ec171ec283ec021ed091ed171ed283ed011c7163c7011cf163cf011ea163ea011eb163eb,
    0x031ec061ec0a1ec0f1ec181ec1f1ec291ec383ec031ed061ed0a1ed0f1ed181ed1f1ed291ed383ed,
    0x021c7091c7171c7283c7021cf091cf171cf283cf021ea091ea171ea283ea021eb091eb171eb283eb,
    0x031c7061c70a1c70f1c7181c71f1c7291c7383c7031cf061cf0a1cf0f1cf181cf1f1cf291cf383cf,
    0x031ea061ea0a1ea0f1ea181ea1f1ea291ea383ea031eb061eb0a1eb0f1eb181eb1f1eb291eb383eb,
    0xc2000c3000c5000c6000c9000ca000cc000cd000d2000d5000d9000dc000e1000e7000ef000f6200,
    0x003c0003c1003c8003c9003ca003cd003d2003d5003da003db003ee003f0003f2003f3003ffce000,
    0x011c0163c0011c1163c1011c8163c8011c9163c9011ca163ca011cd163cd011d2163d2011d5163d5,
    0x021c0091c0171c0283c0021c1091c1171c1283c1021c8091c8171c8283c8021c9091c9171c9283c9,
    0x031c0061c00a1c00f1c0181c01f1c0291c0383c0031c1061c10a1c10f1c1181c11f1c1291c1383c1,
    0x031c8061c80a1c80f1c8181c81f1c8291c8383c8031c9061c90a1c90f1c9181c91f1c9291c9383c9,
    0x021ca091ca171ca283ca021cd091cd171cd283cd021d2091d2171d2283d2021d5091d5171d5283d5,
    0x031ca061ca0a1ca0f1ca181ca1f1ca291ca383ca031cd061cd0a1cd0f1cd181cd1f1cd291cd383cd,
    0x031d2061d20a1d20f1d2181d21f1d2291d2383d2031d5061d50a1d50f1d5181d51f1d5291d5383d5,
    0x011da163da011db163db011ee163ee011f0163f0011f2163f2011f3163f3011ff163ff003cb003cc,
    0x021da091da171da283da021db091db171db283db021ee091ee171ee283ee021f0091f0171f0283f0,
    0x031da061da0a1da0f1da181da1f1da291da383da031db061db0a1db0f1db181db1f1db291db383db,
    0x031ee061ee0a1ee0f1ee181ee1f1ee291ee383ee031f0061f00a1f00f1f0181f01f1f0291f0383f0,
    0x021f2091f2171f2283f2021f3091f3171f3283f3021ff091ff171ff283ff011cb163cb011cc163cc,
    0x031f2061f20a1f20f1f2181f21f1f2291f2383f2031f3061f30a1f30f1f3181f31f1f3291f3383f3,
    0x031ff061ff0a1ff0f1ff181ff1f1ff291ff383ff021cb091cb171cb283cb021cc091cc171cc283cc,
    0x031cb061cb0a1cb0f1cb181cb1f1cb291cb383cb031cc061cc0a1cc0f1cc181cc1f1cc291cc383cc,
    0xd3000d4000d6000d7000da000db000dd000de000e2000e4000e8000eb000f0000f3000f7000fa200,
    0x003d3003d4003d6003dd003de003df003f1003f4003f5003f6003f7003f8003fa003fb003fc003fd,
    0x011d3163d3011d4163d4011d6163d6011dd163dd011de163de011df163df011f1163f1011f4163f4,
    0x021d3091d3171d3283d3021d4091d4171d4283d4021d6091d6171d6283d6021dd091dd171dd283dd,
    0x031d3061d30a1d30f1d3181d31f1d3291d3383d3031d4061d40a1d40f1d4181d41f1d4291d4383d4,
    0x031d6061d60a1d60f1d6181d61f1d6291d6383d6031dd061dd0a1dd0f1dd181dd1f1dd291dd383dd,
    0x021de091de171de283de021df091df171df283df021f1091f1171f1283f1021f4091f4171f4283f4,
    0x031de061de0a1de0f1de181de1f1de291de383de031df061df0a1df0f1df181df1f1df291df383df,
    0x031f1061f10a1f10f1f1181f11f1f1291f1383f1031f4061f40a1f40f1f4181f41f1f4291f4383f4,
    0x011f5163f5011f6163f6011f7163f7011f8163f8011fa163fa011fb163fb011fc163fc011fd163fd,
    0x021f5091f5171f5283f5021f6091f6171f6283f6021f7091f7171f7283f7021f8091f8171f8283f8,
    0x031f5061f50a1f50f1f5181f51f1f5291f5383f5031f6061f60a1f60f1f6181f61f1f6291f6383f6,
    0x031f7061f70a1f70f1f7181f71f1f7291f7383f7031f8061f80a1f80f1f8181f81f1f8291f8383f8,
    0x021fa091fa171fa283fa021fb091fb171fb283fb021fc091fc171fc283fc021fd091fd171fd283fd,
    0x031fa061fa0a1fa0f1fa181fa1f1fa291fa383fa031fb061fb0a1fb0f1fb181fb1f1fb291fb383fb,
    0x031fc061fc0a1fc0f1fc181fc1f1fc291fc383fc031fd061fd0a1fd0f1fd181fd1f1fd291fd383fd,
    0x003fee3000e5000e6000e9000ea000ec000ed000f1000f2000f4000f5000f8000f9000fb000fc200,
    0x011fe163fe003020030300304003050030600307003080030b0030c0030e0030f003100031100312,
    0x021fe091fe171fe283fe011021630201103163030110416304011051630501106163060110716307,
    0x031fe061fe0a1fe0f1fe181fe1f1fe291fe383fe0210209102171022830202103091031710328303,
    0x03102061020a1020f102181021f102291023830203103061030a1030f103181031f1032910338303,
    0x02104091041710428304021050910517105283050210609106171062830602107091071710728307,
    0x03104061040a1040f104181041f104291043830403105061050a1050f105181051f1052910538305,
    0x03106061060a1060f106181061f106291063830603107061070a1070f107181071f1072910738307,
    0x01108163080110b1630b0110c1630c0110e1630e0110f1630f011101631001111163110111216312,
    0x021080910817108283080210b0910b1710b2830b0210c0910c1710c2830c0210e0910e1710e2830e,
    0x03108061080a1080f108181081f10829108383080310b0610b0a10b0f10b1810b1f10b2910b3830b,
    0x0310c0610c0a10c0f10c1810c1f10c2910c3830c0310e0610e0a10e0f10e1810e1f10e2910e3830e,
    0x0210f0910f1710f2830f021100911017110283100211109111171112831102112091121711228312,
    0x0310f0610f0a10f0f10f1810f1f10f2910f3830f03110061100a1100f110181101f1102911038310,
    0x03111061110a1110f111181111f111291113831103112061120a1120f112181121f1122911238312,
    0x0031300314003150031700318003190031a0031b0031c0031d0031e0031f0037f003dc003f9fd200,
    0x0111316313011141631401115163150111716317011181631801119163190111a1631a0111b1631b,
    0x02113091131711328313021140911417114283140211509115171152831502117091171711728317,
    0x03113061130a1130f113181131f113291133831303114061140a1140f114181141f1142911438314,
    0x03115061150a1150f115181151f115291153831503117061170a1170f117181171f1172911738317,
    0x02118091181711828318021190911917119283190211a0911a1711a2831a0211b0911b1711b2831b,
    0x03118061180a1180f118181181f118291183831803119061190a1190f119181191f1192911938319,
    0x0311a0611a0a11a0f11a1811a1f11a2911a3831a0311b0611b0a11b0f11b1811b1f11b2911b3831b,
    0x0111c1631c0111d1631d0111e1631e0111f1631f0117f1637f011dc163dc011f9163f9fe000ff200,
    0x0211c0911c1711c2831c0211d0911d1711d2831d0211e0911e1711e2831e0211f0911f1711f2831f,
    0x0311c0611c0a11c0f11c1811c1f11c2911c3831c0311d0611d0a11d0f11d1811d1f11d2911d3831d,
    0x0311e0611e0a11e0f11e1811e1f11e2911e3831e0311f0611f0a11f0f11f1811f1f11f2911f3831f,
    0x0217f0917f1717f2837f021dc091dc171dc283dc021f9091f9171f9283f90030a0030d00316fa000,
    0x0317f0617f0a17f0f17f1817f1f17f2917f3837f031dc061dc0a1dc0f1dc181dc1f1dc291dc383dc,
    0x031f9061f90a1f90f1f9181f91f1f9291f9383f90110a1630a0110d1630d0111616316fc000fc000,
    0x0210a0910a1710a2830a0210d0910d1710d2830d02116091161711628316fd000fd000fd000fd000,
    0x0310a0610a0a10a0f10a1810a1f10a2910a3830a0310d0610d0a10d0f10d1810d1f10d2910d3830d,
    0x03116061160a1160f116181161f1162911638316ff000ff000ff000ff000ff000ff000ff000ff000]

/-- The codes that begin with the bits of `p`, `codes`, make a tree: what has been read at its inner
nodes, in the order of the tree. -/
def innerPrefixes : ℕ → ℕ × ℕ → List (ℕ × ℕ) → List (ℕ × ℕ)
  | fuel + 1, p, w :: w' :: codes =>
    let side := fun b => (w :: w' :: codes).filter fun c => (c.1 >>> (c.2 - p.2 - 1)) % 2 = b
    p :: (innerPrefixes fuel (2 * p.1, p.2 + 1) (side 0) ++
      innerPrefixes fuel (2 * p.1 + 1, p.2 + 1) (side 1))
  | _, _, _ => []

/-- The bits that a state has read of a code: their value and their number.  The states are
numbered in the order of the tree of the codes, EOS among them. -/
@[irreducible] def statePrefixes : List (ℕ × ℕ) :=
  innerPrefixes 30 (0, 0) (ngxHttpV2HuffEncodeTable ++ [(2 ^ 30 - 1, 30)])

/-- An entry of the decoding table. -/
structure HuffDecodeCode where
  next : ℕ
  emit : ℕ
  sym : ℕ
  ending : ℕ
  deriving DecidableEq, Repr

/-- The entry for `bits` in a row. -/
def entry (row bits : ℕ) : HuffDecodeCode :=
  let e := row >>> (20 * (15 - bits))
  ⟨(e >>> 12) % 256, (e >>> 8) % 2, e % 256, (e >>> 9) % 2⟩

/-- `ngx_http_v2_huff_decode_codes[state][bits]` -/
def huffDecodeCode (state bits : ℕ) : HuffDecodeCode :=
  entry (ngxHttpV2HuffDecodeCodes.getD state 0) bits

/-- Code and length of a symbol; those of EOS past the last one. -/
def huffCode (sym : ℕ) : ℕ × ℕ := ngxHttpV2HuffEncodeTable.getD sym (2 ^ 30 - 1, 30)

/-- The bits that a state has read of a code. -/
def statePrefix (state : ℕ) : ℕ × ℕ := statePrefixes.getD state (0, 0)

/-! ## Packed tables

For the evaluations below a table is packed into one number, from which an entry is a
shift away. -/

/-- Pack a table of pairs into 40 bits each. -/
def pack : List (ℕ × ℕ) → ℕ
  | [] => 0
  | p :: t => pack t * 2 ^ 40 + (p.2 * 2 ^ 32 + p.1)

/-- An entry of a packed table. -/
def unpack (t i : ℕ) : ℕ × ℕ := ((t >>> (40 * i)) % 2 ^ 32, (t >>> (40 * i + 32)) % 2 ^ 8)

/-- The entries fit. -/
def Fits (t : List (ℕ × ℕ)) : Prop := ∀ p ∈ t, p.1 < 2 ^ 32 ∧ p.2 < 2 ^ 8

theorem unpack_pack {t : List (ℕ × ℕ)} (h : Fits t) {i : ℕ} (hi : i < t.length)
    (d : ℕ × ℕ) : unpack (pack t) i = t.getD i d := by
  induction t generalizing i with
  | nil => exact absurd hi (Nat.not_lt_zero i)
  | cons p t ih =>
    obtain ⟨h1, h2⟩ := h p List.mem_cons_self
    cases i with
    | zero =>
      rw [List.getD_cons_zero]
      apply Prod.ext
      · show ((pack t * 2 ^ 40 + (p.2 * 2 ^ 32 + p.1)) >>> 0) % 2 ^ 32 = p.1
        rw [Nat.shiftRight_zero]
        omega
      · show ((pack t * 2 ^ 40 + (p.2 * 2 ^ 32 + p.1)) >>> 32) % 2 ^ 8 = p.2
        rw [Nat.shiftRight_eq_div_pow]
        omega
    | succ i =>
      rw [List.getD_cons_succ, ← ih (fun q hq => h q (List.mem_cons_of_mem p hq))
        (Nat.lt_of_succ_lt_succ hi)]
      have hshift : ∀ k, (pack (p :: t)) >>> (40 + k) = (pack t) >>> k := by
        intro k
        rw [Nat.shiftRight_add, Nat.shiftRight_eq_div_pow _ 40, pack]
        congr 1
        omega
      unfold unpack
      rw [show 40 * (i + 1) = 40 + 40 * i by omega, show 40 + 40 * i + 32 = 40 + (40 * i + 32) by
        omega, hshift, hshift]

/-! ## Evaluating the tables -/

/-- What makes an entry right, the state having read `p`. -/
def entryOk (prefixes codes state : ℕ) (p : ℕ × ℕ) (c : HuffDecodeCode) (bits : ℕ) : Bool :=
  let v := p.1 * 16 + bits
  let len := p.2 + 4
  if c.next = state then decide (30 ≤ len ∧ v / 2 ^ (len - 30) = 2 ^ 30 - 1)
  else
    let q := unpack prefixes c.next
    decide (c.ending = if q.1 + 1 = 2 ^ q.2 then 1 else 0) &&
      if c.emit = 0 then decide (q = (v, len))
      else
        let w := unpack codes c.sym
        decide (w.2 + q.2 = len ∧ w.1 * 2 ^ q.2 + q.1 = v)

/-- Every entry of every row is right, from the state `state` on. -/
def rowsOk (prefixes codes : ℕ) : ℕ → List (ℕ × ℕ) → List ℕ → Bool
  | state, p :: ps, row :: rows =>
    ((List.range 16).all fun bits => entryOk prefixes codes state p (entry row bits) bits) &&
      rowsOk prefixes codes (state + 1) ps rows
  | _, _, _ => true

theorem decodeCodes_check :
    rowsOk (pack statePrefixes) (pack ngxHttpV2HuffEncodeTable) 0 statePrefixes
      ngxHttpV2HuffDecodeCodes = true := by
  decide +kernel

end Huff
