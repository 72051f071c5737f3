/-!
Characters that are canonically equivalent to other characters and are not
written in composed text themselves.
-/

namespace Shading.Text

def singletonTable : List (Nat × String) := [
  (832, "\u0300\u0301"), (835, "\u0313"), (884, "ʹ"), (894, ";"), (903, "·"), (8126, "ι"),
  (8175, "\x60"), (8189, "´"), (8192, "\u2002\u2003"), (8486, "Ω"), (8490, "K"), (9001, "〈〉"),
  (63744, "豈更車賈滑串句龜龜契金喇奈懶癩羅蘿螺裸邏樂洛烙珞落酪駱亂卵欄爛蘭鸞嵐濫藍襤拉臘蠟廊朗浪狼郎來冷勞擄櫓爐盧老蘆虜路露魯鷺碌祿綠菉錄鹿論壟弄籠聾牢磊賂雷壘屢樓淚漏累縷陋勒肋凜" ++
    "凌稜綾菱陵讀拏樂諾丹寧怒率異北磻便復不泌數索參塞省葉說殺辰沈拾若掠略亮兩凉梁糧良諒量勵呂女廬旅濾礪閭驪麗黎力曆歷轢年憐戀撚漣煉璉秊練聯輦蓮連鍊列劣咽烈裂說廉念捻殮簾獵令囹寧嶺怜玲瑩羚" ++
    "聆鈴零靈領例禮醴隸惡了僚寮尿料樂燎療蓼遼龍暈阮劉杻柳流溜琉留硫紐類六戮陸倫崙淪輪律慄栗率隆利吏履易李梨泥理痢罹裏裡里離匿溺吝燐璘藺隣鱗麟林淋臨立笠粒狀炙識什茶刺切度拓糖宅洞暴輻行降見" ++
    "廓兀嗀"), (64016, "塚"), (64018, "晴"), (64021, "凞猪益礼神祥福靖精羽"), (64032, "蘒"), (64034, "諸"),
  (64037, "逸都"), (64042, "飯飼館鶴郞隷侮僧免勉勤卑喝嘆器塀墨層屮悔慨憎懲敏既暑梅海渚漢煮爫琢碑社祉祈祐祖祝禍禎穀突節練縉繁署者臭艹艹著褐視謁謹賓贈辶逸難響頻恵𤋮舘"),
  (64112, "並况全侀充冀勇勺喝啕喙嗢塚墳奄奔婢嬨廒廙彩徭惘慎愈憎慠懲戴揄搜摒敖晴朗望杖歹殺流滛滋漢瀞煮瞧爵犯猪瑱甆画瘝瘟益盛直睊着磌窱節类絛練缾者荒華蝹襁覆視調諸請謁諾諭謹變贈輸遲醙" ++
    "鉶陼難靖韛響頋頻鬒龜𢡊𢡄𣏕㮝䀘䀹𥉉𥳐𧻓齃龎"),
  (194560, "丽丸乁𠄢你侮侻倂偺備僧像㒞𠘺免兔兤具𠔜㒹內再𠕋冗冤仌冬况𩇟凵刃㓟刻剆割剷㔕勇勉勤勺包匆北卉卑博即卽卿卿卿𠨬灰及叟𠭣叫叱吆咞吸呈周咢哶唐啓啣善善喙喫喳嗂圖嘆圗噑噴切壮城埴" ++
    "堍型堲報墬𡓤売壷夆多夢奢𡚨𡛪姬娛娧姘婦㛮㛼嬈嬾嬾𡧈寃寘寧寳𡬘寿将当尢㞁屠屮峀岍𡷤嵃𡷦嵮嵫嵼巡巢㠯巽帨帽幩㡢𢆃㡼庰庳庶廊𪎒廾𢌱𢌱舁弢弢㣇𣊸𦇚形彫㣣徚忍志忹悁㤺㤜悔𢛔惇慈慌慎慌慺憎憲憤憯" ++
    "懞懲懶成戛扝抱拔捐𢬌挽拼捨掃揤𢯱搢揅掩㨮摩摾撝摷㩬敏敬𣀊旣書晉㬙暑㬈㫤冒冕最暜肭䏙朗望朡杞杓𣏃㭉柺枅桒梅𣑭梎栟椔㮝楂榣槪檨𣚣櫛㰘次𣢧歔㱎歲殟殺殻𣪍𡴋𣫺汎𣲼沿泍汧洖派海流浩浸涅𣴞洴港湮" ++
    "㴳滋滇𣻑淹潮𣽞𣾎濆瀹瀞瀛㶖灊災灷炭𠔥煅𤉣熜𤎫爨爵牐𤘈犀犕𤜵𤠔獺王㺬玥㺸㺸瑇瑜瑱璅瓊㼛甤𤰶甾𤲒異𢆟瘐𤾡𤾸𥁄㿼䀈直𥃳𥃲𥄙𥄳眞真真睊䀹瞋䁆䂖𥐝硎碌磌䃣𥘦祖𥚚𥛅福秫䄯穀穊穏𥥼𥪧𥪧竮䈂𥮫篆築䈧" ++
    "𥲀糒䊠糨糣紀𥾆絣䌁緇縂繅䌴𦈨𦉇䍙𦋙罺𦌾羕翺者𦓚𦔣聠𦖨聰𣍟䏕育脃䐋脾媵𦞧𦞵𣎓𣎜舁舄辞䑫芑芋芝劳花芳芽苦𦬼若茝荣莭茣莽菧著荓菊菌菜𦰶𦵫𦳕䔫蓱蓳蔖𧏊蕤𦼬䕝䕡𦾱𧃒䕫虐虜虧虩蚩蚈蜎蛢蝹蜨蝫螆䗗" ++
    "蟡蠁䗹衠衣𧙧裗裞䘵裺㒻𧢮𧥦䚾䛇誠諭變豕𧲨貫賁贛起𧼯𠠄跋趼跰𠣞軔輸𨗒𨗭邔郱鄑𨜮鄛鈸鋗鋘鉼鏹鐕𨯺開䦕閷𨵷䧦雃嶲霣𩅅𩈚䩮䩶韠𩐊䪲𩒖頋頋頩𩖶飢䬳餩馧駂駾䯎𩬰鬒鱀鳽䳎䳭鵧𪃎䳸𪄅𪈎𪊑麻䵖黹黾鼅鼏" ++
    "鼖鼻𪘀")]

def expansionTable : List (Nat × List Nat) := [
  (836, [776, 769]), (2392, [2325, 2364]), (2393, [2326, 2364]), (2394, [2327, 2364]), (2395, [2332,
  2364]), (2396, [2337, 2364]), (2397, [2338, 2364]), (2398, [2347, 2364]), (2399, [2351, 2364]),
  (2524, [2465, 2492]), (2525, [2466, 2492]), (2527, [2479, 2492]), (2611, [2610, 2620]), (2614,
  [2616, 2620]), (2649, [2582, 2620]), (2650, [2583, 2620]), (2651, [2588, 2620]), (2654, [2603,
  2620]), (2908, [2849, 2876]), (2909, [2850, 2876]), (3907, [3906, 4023]), (3917, [3916, 4023]),
  (3922, [3921, 4023]), (3927, [3926, 4023]), (3932, [3931, 4023]), (3945, [3904, 4021]), (3955,
  [3953, 3954]), (3957, [3953, 3956]), (3958, [4018, 3968]), (3960, [4019, 3968]), (3969, [3953,
  3968]), (3987, [3986, 4023]), (3997, [3996, 4023]), (4002, [4001, 4023]), (4007, [4006, 4023]),
  (4012, [4011, 4023]), (4025, [3984, 4021]), (8049, [945, 769]), (8051, [949, 769]), (8053, [951,
  769]), (8055, [953, 769]), (8057, [959, 769]), (8059, [965, 769]), (8061, [969, 769]), (8123,
  [913, 769]), (8137, [917, 769]), (8139, [919, 769]), (8147, [953, 776, 769]), (8155, [921, 769]),
  (8163, [965, 776, 769]), (8171, [933, 769]), (8174, [168, 769]), (8185, [927, 769]), (8187, [937,
  769]), (8491, [65, 778]), (10972, [10973, 824]), (64285, [1497, 1460]), (64287, [1522, 1463]),
  (64298, [1513, 1473]), (64299, [1513, 1474]), (64300, [1513, 1468, 1473]), (64301, [1513, 1468,
  1474]), (64302, [1488, 1463]), (64303, [1488, 1464]), (64304, [1488, 1468]), (64305, [1489,
  1468]), (64306, [1490, 1468]), (64307, [1491, 1468]), (64308, [1492, 1468]), (64309, [1493,
  1468]), (64310, [1494, 1468]), (64312, [1496, 1468]), (64313, [1497, 1468]), (64314, [1498,
  1468]), (64315, [1499, 1468]), (64316, [1500, 1468]), (64318, [1502, 1468]), (64320, [1504,
  1468]), (64321, [1505, 1468]), (64323, [1507, 1468]), (64324, [1508, 1468]), (64326, [1510,
  1468]), (64327, [1511, 1468]), (64328, [1512, 1468]), (64329, [1513, 1468]), (64330, [1514,
  1468]), (64331, [1493, 1465]), (64332, [1489, 1471]), (64333, [1499, 1471]), (64334, [1508,
  1471]), (119134, [119127, 119141]), (119135, [119128, 119141]), (119136, [119128, 119141,
  119150]), (119137, [119128, 119141, 119151]), (119138, [119128, 119141, 119152]), (119139,
  [119128, 119141, 119153]), (119140, [119128, 119141, 119154]), (119227, [119225, 119141]),
  (119228, [119226, 119141]), (119229, [119225, 119141, 119150]), (119230, [119226, 119141,
  119150]), (119231, [119225, 119141, 119151]), (119232, [119226, 119141, 119151])]

end Shading.Text
